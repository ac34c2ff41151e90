import Monkey.Proofs.Source.RoundTrip
import Monkey.Proofs.Value.Arithmetic

/-!
# Operations on integers as programs

The decimal texts of two integers with an operator between them are a program whose value is what
the operator gives for the two, up to the ends of the range. Only the least integer has no text that
reads back.
-/

namespace Monkey

/-! ## The text -/

/-- Two integers with an operator between them, with a blank on each side. -/
def BinaryOp.text (op : BinaryOp) (a b : Int64) : String :=
  Text.ofInt64 a ++ " " ++ op.symbol ++ " " ++ Text.ofInt64 b

/-- The operator between the literals of the two. -/
def BinaryOp.onLiterals {a b : Int64} (op : BinaryOp) (ha : (HashKey.int a).Printable)
    (hb : (HashKey.int b).Printable) : Expr :=
  .binary op ((HashKey.int a).literal ha) ((HashKey.int b).literal hb) .zero

/-- How a program ends whose value is the result of an operation. -/
def Value.EndsAs (v : Value) : Except FaultCause Value → Prop
  | .ok r => v = r
  | .error cause => ∃ span, v = .signal (.fault ⟨cause, span⟩)

variable {a b : Int64}

/-- Any operator binds less tightly than the sign of a number. -/
theorem Precedence.strength_lt_unary {k : Kind} {op : BinaryOp} (h : BinaryOp.ofKind? k = some op) :
    strength k + 1 ≤ unary.rank := by
  cases k <;> first | decide | cases h

theorem BinaryOp.exists_spelled (op : BinaryOp) (ha : (HashKey.int a).Printable)
    (hb : (HashKey.int b).Printable) :
    ∃ ws, Spells ws (op.text a b).toList ∧ Expr.Spelled false 0 (op.onLiterals ha hb) ws := by
  obtain ⟨ls, hlw, hl⟩ := HashKey.exists_rendered (.int a) ha
  obtain ⟨rs, hrw, hr⟩ := HashKey.exists_rendered (.int b) hb
  obtain ⟨k, hk, htext⟩ := op.exists_symbol
  have hop : Renders (.mark k :: rs) (op.symbol.toList ++ ' ' :: (Text.ofInt64 b).toList) :=
    .before htext (List.cons_ne_nil _ _)
      (fun d hd => Option.some.inj hd ▸ Word.not_joins_blank _) hrw.blank
  have hstrength := Precedence.strength_lt_unary hk
  refine ⟨_, ?_, .binary hk (Nat.zero_le _) (hl.mono (by omega)) (hr.mono hstrength)⟩
  have happend := hlw.append (by simp [Scan.isWordChar]) hop.blank
  simpa [BinaryOp.text, HashKey.text] using happend.spells

/-! ## Its value -/

/-- A value without functions in it looks the same wherever the places in it were. -/
theorem Value.eq_of_erase_eq_of_isSimple {v x : Value} (hv : v.isSimple)
    (h : x.erase = v.erase) : x = v := by
  have hx : x.isSimple := by
    rw [← isSimple_rename .erase x]
    exact (congrArg isSimple h).trans ((isSimple_rename _ v).trans hv)
  rwa [Value.erase, Value.erase, Value.rename_of_isSimple _ hx, Value.rename_of_isSimple _ hv] at h

/-- An expression by itself is a program with its value. -/
theorem Program.run_expr (limit : Nat) (env : Env) (e : Expr) (s : Span) (w : World) :
    (Program.run limit env [.expr e s] w).1 = (e.run limit env w).1.unwrapReturn := by
  rw [Program.run, Expr.run, Eval.settle, Eval.settle, Eval.evalAll_singleton]

theorem BinaryOp.run_literals (op : BinaryOp) (ha : (HashKey.int a).Printable)
    (hb : (HashKey.int b).Printable) (limit : Nat) (env : Env) (w : World) :
    (Program.run limit env [.expr (op.onLiterals ha hb) .zero] w).1.EndsAs
      (Value.binary op (.int a) (.int b)) := by
  have heval : (op.onLiterals ha hb).eval (applyWithin limit limit) env w =
      Eval.lift .zero (Value.binary op (.int a) (.int b)) w := by
    rw [onLiterals, Expr.eval, bind_of_ok (HashKey.eval_literal _ env w _ ha),
      bind_of_ok (HashKey.eval_literal _ env w _ hb)]
    rfl
  rw [Program.run_expr, Expr.run, Eval.settle, heval]
  cases hr : Value.binary op (.int a) (.int b) with
  | ok v =>
      have hv := Value.isSimple_of_binary hr
      cases v <;> first | rfl | cases hv
  | error cause => exact ⟨.zero, rfl⟩

theorem Value.EndsAs.of_erase_eq {v x : Value} {r : Except FaultCause Value} (h : v.EndsAs r)
    (hr : ∀ u, r = .ok u → u.isSimple) (hx : x.erase = v.erase) : x.EndsAs r := by
  cases r with
  | ok u =>
      obtain rfl : v = u := h
      exact Value.eq_of_erase_eq_of_isSimple (hr v rfl) hx
  | error cause =>
      obtain ⟨span, hv⟩ := h
      obtain ⟨g, rfl, rfl⟩ := Value.fault_of_erase_eq hx.symm hv
      exact ⟨g.span, rfl⟩

theorem BinaryOp.run_text (op : BinaryOp) (ha : a ≠ .minValue) (hb : b ≠ .minValue) :
    (parse (op.text a b)).errors = [] ∧ ∀ (limit : Nat) (env : Env) (w : World),
      (Program.run limit env (parse (op.text a b)).program w).1.EndsAs
        (Value.binary op (.int a) (.int b)) := by
  obtain ⟨ws, hws, hspelled⟩ := op.exists_spelled ha hb
  have hp := Stmt.SpelledList.cons (.expr (s := .zero) hspelled) (.omitted (.inr rfl)) .nil
  rw [List.append_nil, List.append_nil] at hp
  obtain ⟨herrors, hprogram⟩ := parse_of_spells hp hws
  refine ⟨herrors, fun limit env w => ?_⟩
  have hw : w.erase.prepend "" = w.erase.prepend "" := rfl
  obtain ⟨hvalue, -⟩ := Program.run_alike limit env hprogram hw
  exact (op.run_literals ha hb limit env w).of_erase_eq (fun _ => Value.isSimple_of_binary) hvalue

/-- The operators on any two integers, and programs made of the texts of the two. -/
theorem Value.arithmetic (a b : Int64) :
    (∃ v, negate (.int a) = .ok (.int v) ∧ Wraps v (-a.toInt)) ∧
    (∀ op : BinaryOp, op.Computes a.toInt b.toInt (binary op (.int a) (.int b))) ∧
    Ordered (.int a) (.int b) ∧
    (a ≠ .minValue → b ≠ .minValue → ∀ op : BinaryOp, (parse (op.text a b)).errors = [] ∧
      ∀ (limit : Nat) (env : Env) (w : World),
        (Program.run limit env (parse (op.text a b)).program w).1.EndsAs
          (binary op (.int a) (.int b))) :=
  ⟨negate_int a, fun op => binary_int op a b, ordered_int a b,
    fun ha hb op => op.run_text ha hb⟩

/-- One more than the greatest integer is the least one. -/
theorem Value.arithmetic_greatest_and_one :
    (.maxValue : Int64) ≠ .minValue ∧ (1 : Int64) ≠ .minValue ∧
      BinaryOp.text .add .maxValue 1 = "9223372036854775807 + 1" ∧
      (parse (BinaryOp.text .add .maxValue 1)).errors = [] ∧
      (Program.run 1 World.empty.newEnv.1 (parse (BinaryOp.text .add .maxValue 1)).program
        World.empty.newEnv.2).1 = .int .minValue := by
  have hgreatest : (.maxValue : Int64) ≠ .minValue := by decide
  have hone : (1 : Int64) ≠ .minValue := by decide
  have hsum : binary .add (.int .maxValue) (.int 1) = .ok (.int .minValue) := rfl
  obtain ⟨-, -, -, htext⟩ := Value.arithmetic .maxValue 1
  obtain ⟨herrors, hrun⟩ := htext hgreatest hone .add
  rw [hsum] at hrun
  exact ⟨hgreatest, hone, by decide +kernel, herrors, hrun 1 _ _⟩

end Monkey
