import Monkey.Proofs.Parse.Climbing
import Monkey.Proofs.Parse.Lexical

/-!
# Where the operators end

How tightly an operator must bind to be read decides only where the parser stops. A parser that asks
for more stops no later than one that asks for less: with an expression that the other one has read
as well, on its way to the larger one.
-/

namespace Monkey

/-! ## Left spines -/

/-- The first expression is the second one or stands at the left end of it: as the left operand of
an operator, as what is called or as what is indexed. -/
inductive Expr.LeftSpine : Expr → Expr → Prop
  | refl (e : Expr) : LeftSpine e e
  | lhs {e lhs rhs : Expr} {op : BinaryOp} {s : Span} : LeftSpine e lhs →
      LeftSpine e (.binary op lhs rhs s)
  | callee {e callee : Expr} {args : List Expr} {s : Span} : LeftSpine e callee →
      LeftSpine e (.call callee args s)
  | object {e object key : Expr} {s : Span} : LeftSpine e object →
      LeftSpine e (.index object key s)

theorem Expr.LeftSpine.trans {d e f : Expr} (h : d.LeftSpine e) (h' : e.LeftSpine f) :
    d.LeftSpine f := by
  induction h' with
  | refl => exact h
  | lhs _ ih => exact .lhs ih
  | callee _ ih => exact .callee ih
  | object _ ih => exact .object ih

/-! ## Errors on the way -/

namespace Cursor

theorem pull_extends (stop : Span) (items : List Item) (errors : Array SyntaxError) :
    errors.toList <+: (pull stop errors items).2.2.toList := by
  induction items generalizing errors with
  | nil => exact List.prefix_rfl
  | cons i items ih =>
      cases i with
      | ok t => exact List.prefix_rfl
      | error e =>
          refine List.IsPrefix.trans ?_ (ih _)
          rw [Array.toList_push]
          exact List.prefix_append _ _

/-- On the way errors are only added. -/
theorem Passes.errors_prefix {c c' : Cursor} {ts : List Token} (h : Passes c ts c') :
    c.errors.toList <+: c'.errors.toList :=
  h.keeps (I := fun d => c.errors.toList <+: d.errors.toList)
    (fun d hd => hd.trans (pull_extends d.stop d.rest d.errors)) List.prefix_rfl

end Cursor

namespace Parse

open Cursor (Passes)

variable {n : Nat} {c c1 c' d : Cursor} {e lhs t : Expr} {us : List Token} {p q : Precedence}

/-! ## Operators -/

/-- What stands in front of an operator is at the left end of what the operator makes of it. -/
theorem operator_spine {expr : Precedence → Parse Expr} (hr : operator expr n lhs c = .ok e c') :
    lhs.LeftSpine e := by
  rw [operator, bind_of_ok (current_apply c)] at hr
  generalize c.current.kind = k at hr
  split at hr
  · obtain ⟨args, c1, -, hr⟩ := ok_of_bind hr
    cases hr
    exact .callee (.refl lhs)
  · obtain ⟨-, c1, -, hr⟩ := ok_of_bind hr
    obtain ⟨key, c2, -, hr⟩ := ok_of_bind hr
    obtain ⟨-, c3, -, hr⟩ := ok_of_bind hr
    cases hr
    exact .object (.refl lhs)
  · generalize BinaryOp.ofKind? _ = op? at hr
    cases op? with
    | none =>
        cases hr
        exact .refl _
    | some op =>
        obtain ⟨-, c1, -, hr⟩ := ok_of_bind hr
        obtain ⟨rhs, c2, -, hr⟩ := ok_of_bind hr
        cases hr
        exact .lhs (.refl lhs)

/-- One more operator is read behind what has been climbed so far. -/
theorem Climbs.step (h : Climbs n c lhs us c1) (hn : c.tokens.length ≤ n + 1)
    (hlt : .lowest < Precedence.ofKind c1.peek.kind)
    (hr : Parse.operator expression n lhs c1.advance = .ok e c') :
    (∃ us, Climbs n c e us c') ∧ lhs.LeftSpine e ∧ ∃ ts, Passes c1 ts c' := by
  have hlen := h.stretch.length
  have hsound := operator_sound (c := c1.advance) (expression_sound n) (h.spelled hn) hlt (by omega)
  rw [hr] at hsound
  obtain ⟨ts, hp, -⟩ := hsound
  obtain ⟨vs, hclimbs, -⟩ := h.exists_operator hn hlt hr
  exact ⟨⟨_, hclimbs⟩, operator_spine hr, _, .step h.stretch.live hp⟩

theorem operators_further (hn : c.tokens.length ≤ n + 1) (q : Precedence) (m : Nat) :
    ∀ {lhs : Expr} {us : List Token} {c1 : Cursor}, Climbs n c lhs us c1 →
      operators expression n q m lhs c1 = .ok t d → lhs.LeftSpine t ∧ ∃ ts, Passes c1 ts d := by
  induction m with
  | zero =>
      rintro _ _ _ _ ⟨⟩
      exact ⟨.refl _, [], .refl _⟩
  | succ m ih =>
      intro lhs us c1 h hr
      by_cases hlt : q < .ofKind c1.peek.kind
      · rw [operators_of_lt hlt] at hr
        obtain ⟨e, c2, he, hr⟩ := ok_of_bind hr
        obtain ⟨⟨_, hnext⟩, hspine, ts, hp⟩ :=
          h.step hn (Nat.lt_of_le_of_lt (Nat.zero_le _) hlt) he
        obtain ⟨hspine', ts', hp'⟩ := ih hnext hr
        exact ⟨hspine.trans hspine', _, hp.trans hp'⟩
      · rw [operators_of_not_lt hlt] at hr
        cases hr
        exact ⟨.refl _, [], .refl _⟩

/-- As long as the next operator is one for both parsers they do the same; where it is not one for
the parser that asks for more, that one has stopped and the other goes on from there. -/
theorem operators_earlier (hn : c.tokens.length ≤ n + 1) (hqp : q ≤ p) (m : Nat) :
    ∀ {lhs : Expr} {us : List Token} {c1 : Cursor}, Climbs n c lhs us c1 →
      operators expression n q m lhs c1 = .ok t d →
      ∃ t' d', operators expression n p m lhs c1 = .ok t' d' ∧ t'.LeftSpine t ∧
        ∃ ts, Passes d' ts d := by
  induction m with
  | zero =>
      rintro _ _ _ _ ⟨⟩
      exact ⟨_, _, rfl, .refl _, [], .refl _⟩
  | succ m ih =>
      intro lhs us c1 h hr
      by_cases hlt : p < .ofKind c1.peek.kind
      · have hlt' : q < .ofKind c1.peek.kind := Nat.lt_of_le_of_lt hqp hlt
        rw [operators_of_lt hlt'] at hr
        obtain ⟨e, c2, he, hr⟩ := ok_of_bind hr
        obtain ⟨⟨_, hnext⟩, -⟩ := h.step hn (Nat.lt_of_le_of_lt (Nat.zero_le _) hlt) he
        rw [operators_of_lt hlt, bind_of_ok he]
        exact ih hnext hr
      · exact ⟨lhs, c1, operators_of_not_lt hlt, operators_further hn q (m + 1) h hr⟩

/-! ## Expressions -/

/-- Where a parser that asks for less reads `t`, one that asks for more reads `t` or what stands at
the left end of it, from tokens in front of the other's place and with no error that the other has
not met; and wherever it reads an expression, the next token does not bind more tightly than it asks
for, as a semicolon never does. -/
theorem expression_earlier (p : Precedence) (c : Cursor) :
    (∀ q t d, q ≤ p → expression q c = .ok t d →
      ∃ t' d', expression p c = .ok t' d' ∧ t'.LeftSpine t ∧
        (∃ ts us, Passes c ts d' ∧ Passes d' us d) ∧ d'.errors.toList <+: d.errors.toList) ∧
    ∀ t d, expression p c = .ok t d → ¬p < .ofKind d.peek.kind := by
  have hsound := expression_sound _ p c (Nat.le_refl _)
  refine ⟨fun q t d hqp hr => ?_, fun t d hr => ?_⟩
  · rw [expression_recursive q c _ (Nat.le_refl _)] at hr
    obtain ⟨lhs, c1, hlhs, hr⟩ := ok_of_bind hr
    have hn := Nat.le_succ c.tokens.length
    obtain ⟨us, hclimbs⟩ := exists_operand hn hlhs
    obtain ⟨t', d', hr', hspine, vs, hp'⟩ := operators_earlier hn hqp _ hclimbs hr
    have hrun : expression p c = .ok t' d' := by
      rw [expression_recursive p c _ (Nat.le_refl _), bind_of_ok hlhs, hr']
    rw [hrun] at hsound
    obtain ⟨ts, hp, -⟩ := hsound
    exact ⟨t', d', hrun, hspine, ⟨ts, vs, hp, hp'⟩, hp'.errors_prefix⟩
  · rw [hr] at hsound
    obtain ⟨ts, -, -, hstop⟩ := hsound
    exact hstop

/-- Behind `a * b` and a character that begins nothing a parser at the level of sums stops in front
of `+`. -/
theorem expression_earlier_sum :
    Precedence.lowest ≤ .sum ∧ ∃ t d t' d',
      expression .lowest (.ofStream (.ofText "a * b @ + c;")) = .ok t d ∧
      expression .sum (.ofStream (.ofText "a * b @ + c;")) = .ok t' d' ∧ t'.LeftSpine t ∧
      (∃ ts us, Passes (.ofStream (.ofText "a * b @ + c;")) ts d' ∧ Passes d' us d) ∧
      d'.errors.toList <+: d.errors.toList ∧ ¬Precedence.sum < .ofKind d'.peek.kind := by
  have hle : Precedence.lowest ≤ .sum := by decide
  have hrun : expression .lowest (.ofStream (.ofText "a * b @ + c;")) =
      .ok (.binary .add (.binary .multiply (.ident "a" ⟨0, 1⟩) (.ident "b" ⟨4, 1⟩) ⟨0, 5⟩)
          (.ident "c" ⟨10, 1⟩) ⟨0, 11⟩)
        ⟨⟨.ident, "c", ⟨10, 1⟩⟩, ⟨.semicolon, ";", ⟨11, 1⟩⟩, [], ⟨12, 0⟩,
          #[.ofLexical ⟨.unrecognized '@', ⟨6, 1⟩⟩], 0⟩ := rfl
  obtain ⟨hearlier, hstop⟩ := expression_earlier .sum (.ofStream (.ofText "a * b @ + c;"))
  obtain ⟨t', d', hr', hspine, hpasses, herrors⟩ := hearlier _ _ _ hle hrun
  exact ⟨hle, _, _, t', d', hrun, hr', hspine, hpasses, herrors, hstop _ _ hr'⟩

end Parse

end Monkey
