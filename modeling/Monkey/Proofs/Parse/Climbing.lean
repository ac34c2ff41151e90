import Monkey.Proofs.Parse.Clipping
import Monkey.Proofs.Parse.Ending

/-!
# Operands and operators

The parser reads an operand and then the operators behind it, one after the other. What it has read
in front of any of them is an expression as well: it is read as a whole if the source ends there.
-/

namespace Monkey

open Cursor (Passes Clipped)

namespace Cursor

variable {c c1 c' : Cursor} {us vs : List Token}

/-- These are the tokens from the current one of the first place up to that of the second one. -/
structure Stretch (c : Cursor) (us : List Token) (c' : Cursor) : Prop where
  live : ¬c'.current.isEof
  tokens : c.tokens = us ++ c'.advance.tokens
  last : us.getLast? = some c'.current

namespace Stretch

theorem of_passes {ts : List Token} (h : Passes c ts c') (hc : ¬c'.current.isEof) :
    Stretch c (ts ++ [c'.current]) c' where
  live := hc
  tokens := by rw [h.tokens_eq, tokens_eq_cons hc, List.append_assoc, List.singleton_append]
  last := List.getLast?_concat

theorem ne_nil (h : Stretch c us c') : us ≠ [] := by
  rintro rfl
  cases h.last

theorem not_isEof (h : Stretch c us c') : ¬c.current.isEof := by
  intro hc
  have htokens := h.tokens
  rw [tokens_of_isEof hc] at htokens
  exact h.ne_nil (List.append_eq_nil_iff.mp htokens.symm).1

theorem head (h : Stretch c us c') : us.head? = some c.current := by
  have htokens := congrArg List.head? h.tokens
  rw [tokens_eq_cons h.not_isEof, List.head?_append_of_ne_nil _ h.ne_nil] at htokens
  exact htokens.symm

theorem trans (h : Stretch c us c1) (h' : Stretch c1.advance vs c') :
    Stretch c (us ++ vs) c' where
  live := h'.live
  tokens := by rw [h.tokens, h'.tokens, List.append_assoc]
  last := by rw [List.getLast?_append, h'.last, Option.some_or]

theorem cons (hc : ¬c.current.isEof) (h : Stretch c.advance us c') :
    Stretch c (c.current :: us) c' := by
  have hone : Stretch c [c.current] c := .of_passes (.refl c) hc
  exact hone.trans h

theorem unique (h : Stretch c us c') (h' : Stretch c vs c') : us = vs :=
  List.append_cancel_right (h.tokens.symm.trans h'.tokens)

/-- The place behind the last token is behind as many tokens as there are. -/
theorem length (h : Stretch c us c') :
    c.tokens.length = us.length + c'.advance.tokens.length := by
  rw [h.tokens, List.length_append]

theorem clip {d d' : Cursor} (h : Stretch c us c') (hc : Clipped vs d c)
    (hc' : Clipped vs d' c') : Stretch d us d' where
  live := hc'.live
  tokens := by
    have htokens := h.tokens
    rw [hc.tokens, hc'.tokens_advance, ← List.append_assoc] at htokens
    exact List.append_cancel_right htokens
  last := by rw [h.last, hc'.current_eq]

end Stretch

end Cursor

namespace Parse

open Cursor (Stretch)

/-- From the first place the operand there, and some of the operators behind it, are read as the
expression, up to and with the token at the second place. -/
inductive Climbs (n : Nat) (c : Cursor) : Expr → List Token → Cursor → Prop
  | operand {e : Expr} {us : List Token} {c' : Cursor} :
      Parse.operand expression n c = .ok e c' → Stretch c us c' → Climbs n c e us c'
  | operator {lhs e : Expr} {us vs : List Token} {c1 c' : Cursor} : Climbs n c lhs us c1 →
      .lowest < Precedence.ofKind c1.peek.kind →
      Parse.operator expression n lhs c1.advance = .ok e c' → Stretch c1.advance vs c' →
      Climbs n c e (us ++ vs) c'

variable {n : Nat} {c c' d : Cursor} {e lhs : Expr} {us vs : List Token}

namespace Climbs

theorem stretch (h : Climbs n c e us c') : Stretch c us c' := by
  induction h with
  | operand _ hs => exact hs
  | operator _ _ _ hs ih => exact ih.trans hs

/-- What is read spells the expression, and the next token may be an operator behind it. -/
theorem spelled (h : Climbs n c e us c') (hn : c.tokens.length ≤ n + 1) :
    LeftOperand .lowest e (us.map Token.word) c'.peek.kind := by
  induction h with
  | @operand e us c' hr hs =>
      have hsound := operand_sound (expression_sound n) hn
      rw [hr] at hsound
      obtain ⟨ts, hp, hlive, hleft⟩ := hsound
      rw [hs.unique (.of_passes hp hlive), List.map_append]
      exact hleft .lowest
  | @operator lhs e us vs c1 c' h hlt hr hs ih =>
      have hlen := h.stretch.length
      have hsound := operator_sound (c := c1.advance) (expression_sound n) ih hlt (by omega)
      rw [hr] at hsound
      obtain ⟨ts, hp, hlive, hleft⟩ := hsound
      rw [hs.unique (.of_passes hp hlive), List.map_append, List.map_append, ← List.append_assoc]
      exact hleft

end Climbs

/-! ## Every expression is climbed -/

theorem exists_operand (hn : c.tokens.length ≤ n + 1) (hr : operand expression n c = .ok e c') :
    ∃ us, Climbs n c e us c' := by
  have hsound := operand_sound (expression_sound n) hn
  rw [hr] at hsound
  obtain ⟨ts, hp, hlive, -⟩ := hsound
  exact ⟨_, .operand hr (.of_passes hp hlive)⟩

theorem Climbs.exists_operator {c1 : Cursor} (h : Climbs n c lhs us c1)
    (hn : c.tokens.length ≤ n + 1) (hlt : .lowest < Precedence.ofKind c1.peek.kind)
    (hr : Parse.operator expression n lhs c1.advance = .ok e c') :
    ∃ vs, Climbs n c e (us ++ vs) c' ∧ Stretch c1.advance vs c' := by
  have hlen := h.stretch.length
  have hsound := operator_sound (c := c1.advance) (expression_sound n) (h.spelled hn) hlt (by omega)
  rw [hr] at hsound
  obtain ⟨ts, hp, hlive, -⟩ := hsound
  exact ⟨_, .operator h hlt hr (.of_passes hp hlive), .of_passes hp hlive⟩

theorem operators_climbs (hn : c.tokens.length ≤ n + 1) (p : Precedence) (m : Nat) :
    ∀ {lhs : Expr} {us : List Token} {c1 : Cursor}, Climbs n c lhs us c1 →
      operators expression n p m lhs c1 = .ok e c' → ∃ us, Climbs n c e us c' := by
  induction m with
  | zero =>
      rintro lhs us c1 h ⟨⟩
      exact ⟨us, h⟩
  | succ m ih =>
      intro lhs us c1 h hr
      by_cases hlt : p < .ofKind c1.peek.kind
      · have hlt' : .lowest < Precedence.ofKind c1.peek.kind :=
          Nat.lt_of_le_of_lt (Nat.zero_le _) hlt
        rw [operators_of_lt hlt] at hr
        obtain ⟨e1, c2, he, hr⟩ := ok_of_bind hr
        obtain ⟨vs, h', -⟩ := h.exists_operator hn hlt' he
        exact ih h' hr
      · rw [operators_of_not_lt hlt] at hr
        cases hr
        exact ⟨us, h⟩

theorem expression_climbs {p : Precedence} (hn : c.tokens.length ≤ n)
    (hr : expression p c = .ok e c') : ∃ us, Climbs n c e us c' := by
  rw [expression_recursive p c n hn] at hr
  obtain ⟨lhs, c1, hlhs, hr⟩ := ok_of_bind hr
  obtain ⟨us, h⟩ := exists_operand (by omega) hlhs
  exact operators_climbs (by omega) p n h hr

/-! ## Alone -/

/-- Behind each operator the parser goes on as if the expression read so far had been the first
operand. -/
theorem Climbs.expression_eq (h : Climbs n c e us c') (hn : c.tokens.length ≤ n) :
    ∃ m, n < m + us.length ∧ expression .lowest c = operators expression n .lowest m e c' := by
  induction h with
  | @operand e us c' hr hs =>
      refine ⟨n, Nat.lt_add_of_pos_right (List.length_pos_iff.mpr hs.ne_nil), ?_⟩
      rw [expression_recursive .lowest c n hn, bind_of_ok hr]
  | @operator lhs e us vs c1 c' h hlt hr hs ih =>
      obtain ⟨m, hm, heq⟩ := ih
      have hlen := h.stretch.length
      have hpos := List.length_pos_iff.mpr hs.ne_nil
      have hlen' := hs.length
      obtain ⟨m, rfl⟩ := Nat.exists_eq_add_one_of_ne_zero (by omega : m ≠ 0)
      refine ⟨m, ?_, ?_⟩
      · rw [List.length_append]
        omega
      · rw [heq, operators_of_lt hlt, bind_of_ok hr]

/-- The same expression is read from the same tokens, whatever has been cut off behind them. -/
theorem Climbs.clip (h : Climbs n c e us c') (hd : Clipped vs d c)
    (hlen : vs.length < c'.tokens.length) : ∃ d', Climbs n d e us d' ∧ Clipped vs d' c' := by
  induction h with
  | @operand e us c' hr hs =>
      obtain ⟨-, -, -, hclip⟩ :=
        operand_clips (expression_clips c.tokens.length) (Nat.le_succ _) e c' hr
      obtain ⟨d', hr', hd'⟩ := hclip d hd hlen
      exact ⟨d', .operand hr' (hs.clip hd hd'), hd'⟩
  | @operator lhs e us vs' c1 c' h hlt hr hs ih =>
      have h1 := h.stretch.live
      have hlen1 := length_advance h1
      obtain ⟨-, -, hle, hclip⟩ := operator_clips (expression_clips c1.advance.tokens.length)
        hs.not_isEof (Nat.le_succ _) e c' hr
      obtain ⟨d1, hlhs, hd1⟩ := ih (by omega)
      have hd2 := hd1.advance (by omega)
      obtain ⟨d', hr', hd'⟩ := hclip d1.advance hd2 hlen
      refine ⟨d', .operator hlhs ?_ hr' (hs.clip hd2 hd'), hd'⟩
      rwa [hd1.peek_eq (by omega)]

/-- If the source has no other tokens, the expression is read to its end. -/
theorem Climbs.alone (h : Climbs n c e us c') (hn : c.tokens.length ≤ n) (hd : d.tokens = us) :
    ∃ d', expression .lowest d = .ok e d' ∧ ¬d'.current.isEof ∧ d'.peek.kind = .eof := by
  have hlive : ¬d.current.isEof := by
    rw [← Cursor.tokens_eq_nil_iff, hd]
    exact h.stretch.ne_nil
  have hclipped : Clipped c'.advance.tokens d c := ⟨hlive, by rw [h.stretch.tokens, hd]⟩
  have hlen := length_advance h.stretch.live
  have hlen' := hclipped.length_le
  obtain ⟨d', h', -⟩ := h.clip hclipped (by omega)
  have hlast := h'.stretch.length
  rw [hd] at hlast
  have hend : d'.peek.kind = .eof := current_of_length_le (c := d'.advance) (by omega)
  obtain ⟨m, -, heq⟩ := h'.expression_eq (by omega)
  refine ⟨d', heq.trans (operators_of_not_lt ?_), h'.stretch.live, hend⟩
  rw [hend]
  exact Nat.not_lt_zero _

theorem statement_of_expression {c c' : Cursor} (hr : expression .lowest c = .ok e c')
    (hend : c'.peek.kind = .eof) : statement c = .ok (.expr e e.span) c' := by
  have hnot (hk : c.current.kind = .kwLet ∨ c.current.kind = .kwReturn) : False := by
    cases (expression_shelters.declines .lowest hk).symm.trans hr
  have hne : c'.peek.kind ≠ .semicolon := by
    rw [hend]
    decide
  rw [statement_eq, stmt_of_ne (hnot <| .inl ·) (hnot <| .inr ·), exprStmt, bind_of_ok hr,
    bind_of_ok (accept_of_ne hne)]
  rfl

/-- A source of these tokens is a program of one statement, which is the expression. -/
theorem Climbs.parseStream_eq (h : Climbs n c e us c') (hn : c.tokens.length ≤ n) (stop : Span) :
    parseStream ⟨us.map .ok, stop⟩ = ⟨[.expr e e.span], []⟩ := by
  have hus : ∀ t ∈ us, ¬t.isEof := by
    intro t ht
    have hmem : t ∈ c.tokens := h.stretch.tokens ▸ List.mem_append_left _ ht
    simpa using List.mem_takeWhile_imp hmem
  obtain ⟨hclean, htokens, herrors, -⟩ := Cursor.ofStream_of_tokens stop hus
  obtain ⟨d', hr, hlive, hend⟩ := h.alone hn htokens
  have hstmt := statement_of_expression hr hend
  have hsound := statement_sound (Cursor.ofStream ⟨us.map .ok, stop⟩)
  rw [hstmt] at hsound
  obtain ⟨ts, hp, -⟩ := hsound
  have hd : ¬(Cursor.ofStream ⟨us.map .ok, stop⟩).current.isEof := by
    rw [← Cursor.tokens_eq_nil_iff, htokens]
    exact h.stretch.ne_nil
  obtain ⟨-, hlast, -⟩ := (hp.trans (.one hlive)).clean hclean
  have hend' : d'.advance.current.isEof := by
    rw [Cursor.advance_current, Token.isEof, hend]
    rfl
  have hrun : (Cursor.ofStream ⟨us.map .ok, stop⟩).program = ([.expr e e.span], d'.advance) := by
    rw [Cursor.program, Cursor.left, Cursor.statementsWithin_of_ok hd hstmt,
      Cursor.statementsWithin_of_isEof _ hend']
  simp only [parseStream, hrun, hlast, herrors, Array.toList_empty]

end Parse

end Monkey
