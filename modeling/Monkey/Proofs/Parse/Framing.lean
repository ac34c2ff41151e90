import Monkey.Proofs.Parse.Climbing
import Monkey.Proofs.Parse.Parentheses
import Monkey.Proofs.Token.Slices

/-!
# What the span of an expression covers

The span of an expression goes from the start of one of its tokens to the stop of another one. In
front of the one and behind the other there are no other tokens of it than parentheses.
-/

namespace Monkey

open Token (Orderly ParensMatch)

variable {us vs ws ts : List Token} {s s' : Span}

theorem Cursor.Stretch.orderly {c c' : Cursor} (h : Cursor.Stretch c us c') (hc : c.tokens <:+ ts)
    (hts : Orderly ts) : Orderly us := by
  rw [h.tokens] at hc
  exact hts.sublist ((List.sublist_append_left _ _).trans hc.sublist)

/-! ## Parentheses around it -/

/-- The span frames some of the tokens; the others are parentheses around these. -/
structure Span.FramesIn (s : Span) (us opens core closes : List Token) : Prop where
  eq : us = opens ++ core ++ closes
  opens : ∀ t ∈ opens, t.kind = .leftParen
  closes : ∀ t ∈ closes, t.kind = .rightParen
  frames : s.Frames core

/-- The span frames the tokens but for parentheses around them. -/
def Span.Framed (s : Span) (us : List Token) : Prop :=
  ∃ opens core closes, s.FramesIn us opens core closes

/-- The tokens are not in parentheses as a whole: those in front of what the span frames, if any,
are closed in it. -/
def Span.Bare (s : Span) (us : List Token) : Prop :=
  ∃ opens before after closes, s.FramesIn us opens (before ++ after) closes ∧
    ParensMatch (opens ++ before)

namespace Span

theorem Bare.framed (h : s.Bare us) : s.Framed us := by
  obtain ⟨opens, before, after, closes, h, -⟩ := h
  exact ⟨opens, _, closes, h⟩

theorem Frames.bare (h : s.Frames us) : s.Bare us :=
  ⟨[], [], us, [], ⟨(List.append_nil us).symm, nofun, nofun, h⟩, rfl⟩

/-- Without parentheses to lose, none are left out. -/
theorem FramesIn.eq_core {opens before after closes : List Token}
    (h : s.FramesIn us opens (before ++ after) closes) (hbefore : ParensMatch (opens ++ before))
    (hcore : ParensMatch (before ++ after)) (hus : ParensMatch us) : us = before ++ after := by
  obtain ⟨rfl, hopens, hcloses, -⟩ := h
  obtain ⟨rfl, rfl⟩ := eq_nil_of_parensMatch hopens hcloses hbefore hcore hus
  simp

end Span

namespace Parse

open Cursor (Stretch)

/-! ## Where the spans come from -/

/-- The span of what the parser reads goes from `start` to the last token read. -/
def SpansFrom (start : Span) (x : Parse Expr) : Prop :=
  ∀ c e c', x c = .ok e c' → e.span = start.merge c'.current.span

namespace SpansFrom

variable {α : Type} {start : Span}

theorem finish (f : Span → Expr) (h : ∀ u, (f u).span = u) :
    SpansFrom start (do return f (start.merge (← current).span)) := by
  rintro c e c' ⟨⟩
  exact h _

theorem bind {x : Parse α} {f : α → Parse Expr} (h : ∀ a, SpansFrom start (f a)) :
    SpansFrom start (x >>= f) := by
  intro c e c' hr
  obtain ⟨a, c1, -, hr⟩ := ok_of_bind hr
  exact h a c1 e c' hr

theorem ite {p : Prop} [Decidable p] {x y : Parse Expr} (hx : SpansFrom start x)
    (hy : SpansFrom start y) : SpansFrom start (if p then x else y) := by
  split
  · exact hx
  · exact hy

end SpansFrom

variable {expr : Precedence → Parse Expr} {n m : Nat} {c c1 c' : Cursor} {e lhs : Expr}

theorem integer_span (hr : integer c = .ok e c') : c' = c ∧ e.span = c.current.span := by
  rw [integer, bind_of_ok (current_apply c)] at hr
  cases hi : Text.int64? c.current.lexeme <;> rw [hi] at hr <;> cases hr
  exact ⟨rfl, rfl⟩

theorem cond_span (hr : cond expr n m c = .ok e c') :
    e.span = c.current.span.merge c'.current.span := by
  cases m with
  | zero => cases hr
  | succ m =>
      rw [cond, bind_of_ok (current_apply c)] at hr
      refine SpansFrom.bind (fun _ => .bind fun _ => .bind fun test => .bind fun _ => .bind fun _ =>
        .bind fun yes => .bind fun _ => .ite (.bind fun _ => .ite ?_ ?_) ?_) c e c' hr
      · exact .bind fun _ => .finish (.cond test yes (some _)) fun _ => rfl
      · exact .bind fun _ => .bind fun no => .finish (.cond test yes (some no)) fun _ => rfl
      · exact .finish (.cond test yes none) fun _ => rfl

theorem function_span (hr : function expr n c = .ok e c') :
    e.span = c.current.span.merge c'.current.span := by
  rw [function, bind_of_ok (current_apply c)] at hr
  exact SpansFrom.bind (fun _ => .bind fun ps => .bind fun _ => .bind fun body =>
    .finish (.fn ps body) fun _ => rfl) c e c' hr

theorem array_span (hr : array expr n c = .ok e c') :
    e.span = c.current.span.merge c'.current.span := by
  rw [array, bind_of_ok (current_apply c)] at hr
  exact SpansFrom.bind (fun items => .finish (.array items) fun _ => rfl) c e c' hr

theorem hash_span (hr : hash expr n c = .ok e c') :
    e.span = c.current.span.merge c'.current.span := by
  rw [hash, bind_of_ok (current_apply c)] at hr
  exact SpansFrom.bind (fun ps => .bind fun _ => .finish (.hash ps) fun _ => rfl) c e c' hr

theorem call_span (hr : call expr n lhs c = .ok e c') :
    e.span = lhs.span.merge c'.current.span :=
  SpansFrom.bind (fun args => .finish (.call lhs args) fun _ => rfl) c e c' hr

theorem index_span (hr : index expr lhs c = .ok e c') :
    e.span = lhs.span.merge c'.current.span :=
  SpansFrom.bind (fun _ => .bind fun key => .bind fun _ => .finish (.index lhs key) fun _ => rfl)
    c e c' hr

theorem unary_span {op : UnaryOp} (hr : unary expr op c = .ok e c') :
    ∃ rhs, expr .unary c.advance = .ok rhs c' ∧ e.span = c.current.span.merge rhs.span := by
  obtain ⟨rhs, c1, hrhs, hr⟩ := ok_of_bind (x := expr .unary) (s := c.advance) hr
  cases hr
  exact ⟨rhs, hrhs, rfl⟩

theorem binary_span {op : BinaryOp} {p : Precedence} (hr : binary expr op p lhs c = .ok e c') :
    ∃ rhs, expr p c.advance = .ok rhs c' ∧ e.span = lhs.span.merge rhs.span := by
  obtain ⟨rhs, c1, hrhs, hr⟩ := ok_of_bind (x := expr p) (s := c.advance) hr
  cases hr
  exact ⟨rhs, hrhs, rfl⟩

theorem grouped_ok (hr : grouped expr c = .ok e c') :
    ∃ c1, expr .lowest c.advance = .ok e c1 ∧ c1.peek.kind = .rightParen ∧ c' = c1.advance := by
  obtain ⟨inner, c1, hinner, hr⟩ := ok_of_bind (x := expr .lowest) (s := c.advance) hr
  by_cases hp : c1.peek.kind = .rightParen
  · rw [bind_of_ok (expect_of_eq hp)] at hr
    cases hr
    exact ⟨c1, hinner, hp, rfl⟩
  · cases (bind_of_error (expect_of_ne hp)).symm.trans hr

/-- An operand that is not in parentheses is one token, or a prefix operator and its operand, or it
is framed by its first and its last token. -/
theorem operand_span (hk : c.current.kind ≠ .leftParen) (hr : operand expr n c = .ok e c') :
    (c' = c ∧ e.span = c.current.span) ∨
      (∃ rhs, expr .unary c.advance = .ok rhs c' ∧ e.span = c.current.span.merge rhs.span) ∨
      e.span = c.current.span.merge c'.current.span := by
  rw [operand, bind_of_ok (current_apply c)] at hr
  cases hkind : c.current.kind <;> rw [hkind] at hr
  case integer => exact .inl (integer_span hr)
  case ident | string | kwTrue | kwFalse =>
    cases hr
    exact .inl ⟨rfl, rfl⟩
  case bang | minus => exact .inr (.inl (unary_span hr))
  case leftParen => exact absurd hkind hk
  case kwIf => exact .inr (.inr (cond_span hr))
  case kwFn => exact .inr (.inr (function_span hr))
  case leftBracket => exact .inr (.inr (array_span hr))
  case leftBrace => exact .inr (.inr (hash_span hr))
  all_goals cases hr

/-- Behind its left operand an operator goes on to its own last token, or to its right operand. -/
theorem operator_span (hlt : .lowest < Precedence.ofKind c.current.kind)
    (hr : operator expr n lhs c = .ok e c') :
    e.span = lhs.span.merge c'.current.span ∨
      ∃ p rhs, expr p c.advance = .ok rhs c' ∧ e.span = lhs.span.merge rhs.span := by
  rw [operator, bind_of_ok (current_apply c)] at hr
  cases hkind : c.current.kind <;> rw [hkind] at hr hlt
  case leftParen => exact .inl (call_span hr)
  case leftBracket => exact .inl (index_span hr)
  all_goals first
    | exact .inr ⟨_, binary_span hr⟩
    | exact absurd hlt (Nat.lt_irrefl 0)

/-! ## What is climbed is framed -/

theorem Climbs.parensMatch {us : List Token} (h : Climbs n c e us c')
    (hn : c.tokens.length ≤ n) : ParensMatch us := by
  obtain ⟨l, -, -, hspelled⟩ := h.spelled (Nat.le_succ_of_le hn)
  exact hspelled.bracketed.paired.parensMatch

/-- What is climbed over fewer than `k` tokens is framed by its span. -/
def FramedBelow (n k : Nat) : Prop :=
  ∀ {c c' : Cursor} {e : Expr} {us : List Token}, Climbs n c e us c' → us.length < k →
    c.tokens.length ≤ n → Orderly us → e.span.Framed us

variable {us vs : List Token}

theorem operand_bare (hE : FramedBelow n us.length) (hn : c.tokens.length ≤ n)
    (hts : Orderly us) (hk : c.current.kind ≠ .leftParen)
    (hr : operand expression n c = .ok e c') (hs : Stretch c us c') : e.span.Bare us := by
  have hlen := length_advance hs.not_isEof
  rcases operand_span hk hr with ⟨rfl, hspan⟩ | ⟨rhs, hrhs, hspan⟩ | hspan
  · obtain rfl := hs.unique (.of_passes (.refl c') hs.live)
    exact hspan ▸ (Span.frames_singleton hts).bare
  · obtain ⟨us', hclimb⟩ := expression_climbs (n := n) (by omega) hrhs
    obtain rfl := hs.unique (.cons hs.not_isEof hclimb.stretch)
    obtain ⟨opens, core, closes, rfl, hopens, hcloses, hframes⟩ :=
      hE hclimb (Nat.lt_succ_self _) (by omega) (hts.sublist (List.sublist_cons_self _ _))
    have hcore : Orderly ([c.current] ++ (opens ++ core)) :=
      hts.sublist ((List.sublist_append_left _ closes).cons_cons _)
    have hfirst : c.current.span.Frames [c.current] :=
      Span.frames_singleton (hcore.sublist (List.sublist_append_left _ _))
    exact ⟨[], [], c.current :: (opens ++ core), closes,
      ⟨rfl, nofun, hcloses, hspan ▸ hfirst.merge hframes hcore⟩, rfl⟩
  · exact (hspan ▸ Span.frames_ends hts hs.head hs.last : e.span.Frames us).bare

theorem operator_bare (hE : FramedBelow n (us ++ vs).length) (hn : c.tokens.length ≤ n)
    (hts : Orderly (us ++ vs)) (h : Climbs n c lhs us c1)
    (hlt : .lowest < Precedence.ofKind c1.peek.kind)
    (hr : operator expression n lhs c1.advance = .ok e c') (hs : Stretch c1.advance vs c') :
    e.span.Bare (us ++ vs) := by
  have hlen := h.stretch.length
  have hlen' := length_advance hs.not_isEof
  have hpos := List.length_pos_iff.mpr hs.ne_nil
  have hmatch := h.parensMatch hn
  obtain ⟨opens, core, closes, rfl, hopens, hcloses, hframes⟩ :=
    hE h (by rw [List.length_append]; omega) hn (hts.sublist (List.sublist_append_left _ _))
  rw [List.append_assoc opens] at hmatch
  rcases operator_span hlt hr with hspan | ⟨p, rhs, hrhs, hspan⟩
  · have hcore : Orderly (core ++ (closes ++ vs)) := hts.sublist (by simp)
    refine ⟨opens, core ++ closes, vs, [], ⟨by simp, hopens, nofun, ?_⟩, hmatch⟩
    rw [hspan, List.append_assoc]
    exact hframes.merge_last hs.last hcore
  · obtain ⟨vs', hclimb⟩ := expression_climbs (n := n) (by omega) hrhs
    obtain rfl := hs.unique (.cons hs.not_isEof hclimb.stretch)
    obtain ⟨opens', core', closes', rfl, hopens', hcloses', hframes'⟩ :=
      hE hclimb (by simp only [List.length_append, List.length_cons]; omega) (by omega)
        (hts.sublist ((List.sublist_cons_self _ _).trans (List.sublist_append_right _ _)))
    have hcore : Orderly (core ++ ((closes ++ c1.advance.current :: opens') ++ core')) := by
      refine hts.sublist ?_
      simp
    refine ⟨opens, core ++ closes, c1.advance.current :: (opens' ++ core'), closes',
      ⟨by simp, hopens, hcloses', ?_⟩, hmatch⟩
    simpa [hspan] using hframes.merge hframes' hcore

theorem grouped_framed (hE : FramedBelow n us.length) (hn : c.tokens.length ≤ n)
    (hts : Orderly us) (hk : c.current.kind = .leftParen)
    (hr : operand expression n c = .ok e c') (hs : Stretch c us c') : e.span.Framed us := by
  have hlen := length_advance hs.not_isEof
  rw [operand, bind_of_ok (current_apply c), hk] at hr
  obtain ⟨c1, hinner, hp, rfl⟩ := grouped_ok hr
  obtain ⟨us', hclimb⟩ := expression_climbs (n := n) (by omega) hinner
  obtain rfl := hs.unique ((Stretch.cons hs.not_isEof hclimb.stretch).trans
    (.of_passes (.refl _) (Token.not_isEof_of_kind hp (by decide))))
  obtain ⟨opens, core, closes, rfl, hopens, hcloses, hframes⟩ :=
    hE hclimb (by simp only [List.length_append, List.length_cons]; omega) (by omega)
      (hts.sublist ((List.sublist_cons_self _ _).trans (List.sublist_append_left _ _)))
  refine ⟨c.current :: opens, core, closes ++ [c1.advance.current], by simp, ?_, ?_, hframes⟩
  · exact List.forall_mem_cons.mpr ⟨hk, hopens⟩
  · exact List.forall_mem_append.mpr ⟨hcloses, List.forall_mem_singleton.mpr hp⟩

theorem framedBelow (n k : Nat) : FramedBelow n k := by
  induction k with
  | zero => exact fun _ hk => absurd hk (Nat.not_lt_zero _)
  | succ k ih =>
      intro c c' e us h hk hn hts
      have hE : FramedBelow n us.length := fun h' hlt => ih h' (by omega)
      cases h with
      | operator h hlt hr hs => exact (operator_bare hE hn hts h hlt hr hs).framed
      | operand hr hs =>
          by_cases hparen : c.current.kind = .leftParen
          · exact grouped_framed hE hn hts hparen hr hs
          · exact (operand_bare hE hn hts hparen hr hs).framed

end Parse

end Monkey
