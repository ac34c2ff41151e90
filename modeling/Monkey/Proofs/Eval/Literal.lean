import Monkey.Proofs.Eval.Erasure

/-!
# Literals

An integer, unless it is the least one, a boolean, and an array or hash of such values have a
literal: an expression that anywhere evaluates to the value and does nothing else.
-/

namespace Monkey

/-! ## Values with a literal -/

def HashKey.Printable : HashKey → Prop
  | int v => v ≠ .minValue
  | bool _ => True
  | str _ => False

mutual
/-- Built from integers other than the least one, booleans, arrays, and hashes with such keys. -/
def Value.Printable : Value → Prop
  | .int v => v ≠ .minValue
  | .bool _ => True
  | .array items => Value.PrintableAll items
  | .hash entries => Entries.Sorted entries ∧ Value.PrintableEntries entries
  | _ => False

def Value.PrintableAll : List Value → Prop
  | [] => True
  | v :: vs => v.Printable ∧ Value.PrintableAll vs

def Value.PrintableEntries : List (HashKey × Value) → Prop
  | [] => True
  | (k, v) :: es => k.Printable ∧ v.Printable ∧ Value.PrintableEntries es
end

/-- There are no numerals below zero. -/
def HashKey.literal : (k : HashKey) → k.Printable → Expr
  | int v, _ =>
    if v.toInt < 0 then .unary .negate (.int (-v) .zero) .zero else .int v .zero
  | bool b, _ => .bool b .zero

mutual
def Value.literal : (v : Value) → v.Printable → Expr
  | .int v, h => HashKey.literal (.int v) h
  | .bool b, h => HashKey.literal (.bool b) h
  | .array items, h => .array (Value.literals items h) .zero
  | .hash entries, h => .hash (Value.entryLiterals entries h.2) .zero

def Value.literals : (vs : List Value) → Value.PrintableAll vs → List Expr
  | [], _ => []
  | v :: vs, h => v.literal h.1 :: Value.literals vs h.2

def Value.entryLiterals :
    (es : List (HashKey × Value)) → Value.PrintableEntries es → List (Expr × Expr)
  | [], _ => []
  | (k, v) :: es, h => (k.literal h.1, v.literal h.2.1) :: Value.entryLiterals es h.2.2
end

/-! ## Evaluation -/

/-- A new greatest key comes last. -/
theorem Entries.put_of_forall_lt {κ ν : Type} [Ord κ] [Std.OrientedOrd κ] {k : κ} {v : ν}
    {m : List (κ × ν)} (h : ∀ l ∈ keys m, compare l k = .lt) : put k v m = m ++ [(k, v)] := by
  induction m with
  | nil => rfl
  | cons e m ih =>
      obtain ⟨l, w⟩ := e
      obtain ⟨hl, hm⟩ := List.forall_mem_cons.mp h
      rw [put, Std.OrientedCmp.gt_of_lt hl]
      exact congrArg (List.cons _) (ih hm)

open Eval

section Literals

variable (apply : Apply) (env : Env) (w : World)

theorem HashKey.eval_literal (k : HashKey) (h : k.Printable) :
    (k.literal h).eval apply env w = .ok k.toValue w := by
  cases k with
  | int v =>
      rw [literal]
      split
      · have hneg : -(-v) = v := Int64.neg_neg
        change EStateM.Result.ok (Value.int (-(-v))) w = _
        rw [hneg]
        rfl
      · rfl
  | bool b => rfl
  | str _ => exact h.elim

theorem HashKey.toKey_toValue (k : HashKey) (span : Span) : k.toValue.toKey span = pure k := by
  cases k <;> rfl

mutual
theorem Value.eval_literal : (v : Value) → (h : v.Printable) →
    (v.literal h).eval apply env w = .ok v w
  | .int v, h => HashKey.eval_literal apply env w (.int v) h
  | .bool b, h => HashKey.eval_literal apply env w (.bool b) h
  | .array items, h => by
      have hitems := Value.evalAll_literals items h
      rw [Value.literal, Expr.eval, bind_of_ok hitems]
      rfl
  | .hash entries, h => by
      have hentries := Value.evalPairs_entryLiterals entries [] h.2 h.1
      rw [Value.literal, Expr.eval, bind_of_ok hentries]
      rfl

theorem Value.evalAll_literals : (vs : List Value) → (h : Value.PrintableAll vs) →
    Expr.evalAll apply env (Value.literals vs h) w = .ok vs w
  | [], _ => rfl
  | v :: vs, h => by
      have hv := v.eval_literal h.1
      have hvs := Value.evalAll_literals vs h.2
      rw [Value.literals, Expr.evalAll, bind_of_ok hv, bind_of_ok hvs]
      rfl

theorem Value.evalPairs_entryLiterals : (es m : List (HashKey × Value)) →
    (h : Value.PrintableEntries es) → Entries.Sorted (m ++ es) →
    Expr.evalPairs apply env (Value.entryLiterals es h) m w = .ok (m ++ es) w
  | [], m, _, _ => by simp [Value.entryLiterals, Expr.evalPairs, Pure.pure, EStateM.pure]
  | (k, v) :: es, m, h, hsorted => by
      have hk := k.eval_literal apply env w h.1
      have hv := v.eval_literal h.2.1
      have hlast : ∀ l ∈ Entries.keys m, compare l k = .lt := by
        intro l hl
        rw [Entries.Sorted, Entries.keys, List.map_append, List.pairwise_append] at hsorted
        exact hsorted.2.2 l hl k List.mem_cons_self
      have hes := Value.evalPairs_entryLiterals es (m ++ [(k, v)]) h.2.2 (by simpa using hsorted)
      rw [Value.entryLiterals, Expr.evalPairs, bind_of_ok hk, k.toKey_toValue, pure_bind,
        bind_of_ok hv, Entries.put_of_forall_lt hlast, hes, List.append_assoc,
        List.singleton_append]
end

end Literals

/-! ## No places -/

mutual
/-- There are no places in a value that has a literal. -/
theorem Value.eq_of_erase_eq : (v : Value) → v.Printable → {x : Value} → x.erase = v.erase → x = v
  | .int _, _, x, hx | .bool _, _, x, hx => by cases x <;> simp_all
  | .array vs, h, x, hx => by
      cases x with
      | array xs => exact congrArg Value.array (Value.eq_of_eraseAll_eq vs h (Value.array.inj hx))
      | _ => simp at hx
  | .hash es, h, x, hx => by
      cases x with
      | hash xs =>
          exact congrArg Value.hash (Value.eq_of_eraseEntries_eq es h.2 (Value.hash.inj hx))
      | _ => simp at hx

theorem Value.eq_of_eraseAll_eq : (vs : List Value) → Value.PrintableAll vs → {xs : List Value} →
    Value.renameAll .erase xs = Value.renameAll .erase vs → xs = vs
  | [], _, xs, hx => by
      cases xs with
      | nil => rfl
      | cons => cases hx
  | v :: vs, h, xs, hx => by
      cases xs with
      | nil => cases hx
      | cons x xs =>
          obtain ⟨hv, hvs⟩ := List.cons.inj hx
          rw [v.eq_of_erase_eq h.1 hv, Value.eq_of_eraseAll_eq vs h.2 hvs]

theorem Value.eq_of_eraseEntries_eq : (es : List (HashKey × Value)) → Value.PrintableEntries es →
    {xs : List (HashKey × Value)} →
    Value.renameEntries .erase xs = Value.renameEntries .erase es → xs = es
  | [], _, xs, hx => by
      cases xs with
      | nil => rfl
      | cons => cases hx
  | (k, v) :: es, h, xs, hx => by
      cases xs with
      | nil => cases hx
      | cons x xs =>
          obtain ⟨j, x⟩ := x
          obtain ⟨he, hes⟩ := List.cons.inj hx
          obtain ⟨hk, hv⟩ := Prod.mk.inj he
          rw [hk, v.eq_of_erase_eq h.2.1 hv, Value.eq_of_eraseEntries_eq es h.2.2 hes]
end

/-- A program that is a literal but for its places has that value, and leaves the world alone. -/
theorem Program.run_literal (limit : Nat) (env : Env) {p : Program} {v : Value} (h : v.Printable)
    (hp : p.erase = Program.erase [.expr (v.literal h) .zero]) (w : World) :
    (Program.run limit env p w).1 = v ∧ (Program.run limit env p w).2.erase = w.erase := by
  have hrun : Program.run limit env [.expr (v.literal h) .zero] w = (v, w) := by
    have hv := v.eval_literal (applyWithin limit limit) env w h
    have hunwrap : v.unwrapReturn = v := by
      cases v with
      | signal _ => exact h.elim
      | _ => rfl
    simp only [Program.run, Stmt.evalAll, Stmt.eval, Bind.bind, EStateM.bind, Pure.pure,
      EStateM.pure, settle, hv, hunwrap]
  obtain ⟨hvalue, hworld⟩ := Program.run_alike limit env hp (rfl : w.erase.prepend "" = _)
  rw [hrun] at hvalue hworld
  rw [World.prepend_empty, World.prepend_empty] at hworld
  exact ⟨v.eq_of_erase_eq h hvalue, hworld⟩

end Monkey
