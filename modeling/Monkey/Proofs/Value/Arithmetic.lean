import Mathlib.Algebra.Group.Int.Defs
import Mathlib.Algebra.Group.Nat.Defs
import Monkey.Value.Operation

/-!
# Arithmetic at the limits

The operators on two integers, told by the integers without limits: a sum, a difference, a product
or a negation that does not fit is off by a multiple of `2 ^ 64`, a quotient is rounded toward zero,
and comparisons are those of the order.
-/

namespace Monkey

/-! ## What an operator has to give -/

/-- The number is `x` reduced modulo `2 ^ 64` to the range of signed numbers. -/
structure Wraps (v : Int64) (x : Int) : Prop where
  lower : -2 ^ 63 ≤ v.toInt
  upper : v.toInt ≤ 2 ^ 63 - 1
  dvd : (2 ^ 64 : Int) ∣ x - v.toInt

/-- The quotient `q` of `a` by `b` is rounded toward zero: the rest has the sign of `a`. -/
def Truncates (q a b : Int) : Prop :=
  ∃ r : Int, a = q * b + r ∧ r.natAbs < b.natAbs ∧ (r = 0 ∨ r.sign = a.sign)

/-- The result of an operator on two integers is what it should be. -/
def BinaryOp.Computes (a b : Int) (r : Except FaultCause Value) : BinaryOp → Prop
  | add => ∃ v, r = .ok (.int v) ∧ Wraps v (a + b)
  | subtract => ∃ v, r = .ok (.int v) ∧ Wraps v (a - b)
  | multiply => ∃ v, r = .ok (.int v) ∧ Wraps v (a * b)
  | divide => (r = .error .divisionByZero ↔ b = 0) ∧
      (a = -2 ^ 63 ∧ b = -1 → r = .ok (.int .minValue)) ∧
      (b ≠ 0 → ¬(a = -2 ^ 63 ∧ b = -1) → ∃ q : Int64, r = .ok (.int q) ∧ Truncates q.toInt a b)
  | lessThan => r = .ok (.bool (a < b))
  | lessEqual => r = .ok (.bool (a ≤ b))
  | greaterThan => r = .ok (.bool (a > b))
  | greaterEqual => r = .ok (.bool (a ≥ b))
  | equal => r = .ok (.bool (a = b))
  | notEqual => r = .ok (.bool (a ≠ b))

/-! ## Numbers -/

theorem Wraps.of_bmod {v : Int64} {x : Int} (h : v.toInt = x.bmod (2 ^ 64)) : Wraps v x where
  lower := v.le_toInt
  upper := Int.le_sub_one_of_lt v.toInt_lt
  dvd := by
    rw [h, ← Int.dvd_neg, Int.neg_sub]
    exact Int.dvd_bmod_sub_self

theorem truncates_tdiv (a : Int) {b : Int} (hb : b ≠ 0) : Truncates (a.tdiv b) a b := by
  refine ⟨a.tmod b, (Int.tdiv_mul_add_tmod a b).symm, ?_, ?_⟩
  · rw [Int.natAbs_tmod]
    exact Nat.mod_lt _ (Int.natAbs_pos.mpr hb)
  · by_cases hdvd : b ∣ a
    · exact .inl (Int.tmod_eq_zero_of_dvd hdvd)
    · exact .inr (by rw [Int.sign_tmod, if_neg hdvd])

/-- One quotient of two numbers does not fit. -/
theorem toInt_div_of_fits {a b : Int64} (h : ¬(a.toInt = -2 ^ 63 ∧ b.toInt = -1)) :
    (a / b).toInt = a.toInt.tdiv b.toInt := by
  by_cases ha : a = .minValue
  · refine Int64.toInt_div_of_ne_right a b fun hb => h ?_
    rw [ha, hb]
    decide
  · exact Int64.toInt_div_of_ne_left a b ha

namespace Value

/-! ## Operators -/

theorem negate_int (a : Int64) : ∃ v, negate (.int a) = .ok (.int v) ∧ Wraps v (-a.toInt) :=
  ⟨-a, rfl, .of_bmod (Int64.toInt_neg a)⟩

theorem divide_int (a b : Int64) :
    BinaryOp.Computes a.toInt b.toInt (binary .divide (.int a) (.int b)) .divide := by
  have hzero : b = 0 ↔ b.toInt = 0 := Int64.toInt_inj.symm
  have hdivide : binary .divide (.int a) (.int b) =
      if b = 0 then .error .divisionByZero else .ok (.int (a / b)) := rfl
  rw [hdivide]
  refine ⟨?_, ?_, fun hb hfits => ?_⟩
  · rw [← hzero]
    split <;> simp_all
  · rintro ⟨ha, hb⟩
    obtain rfl : a = .minValue := Int64.toInt_inj.mp ha
    obtain rfl : b = -1 := Int64.toInt_inj.mp hb
    rfl
  · rw [if_neg (mt hzero.mp hb)]
    exact ⟨a / b, rfl, toInt_div_of_fits hfits ▸ truncates_tdiv a.toInt hb⟩

theorem ok_bool_congr {p q : Prop} [Decidable p] [Decidable q] (h : p ↔ q) :
    (.ok (.bool p) : Except FaultCause Value) = .ok (.bool q) :=
  congrArg (fun holds => Except.ok (Value.bool holds)) (decide_eq_decide.mpr h)

theorem binary_int (op : BinaryOp) (a b : Int64) :
    op.Computes a.toInt b.toInt (binary op (.int a) (.int b)) := by
  cases op with
  | add => exact ⟨a + b, rfl, .of_bmod (Int64.toInt_add a b)⟩
  | subtract => exact ⟨a - b, rfl, .of_bmod (Int64.toInt_sub a b)⟩
  | multiply => exact ⟨a * b, rfl, .of_bmod (Int64.toInt_mul a b)⟩
  | divide => exact divide_int a b
  | lessThan | greaterThan => exact ok_bool_congr Int64.lt_iff_toInt_lt
  | lessEqual | greaterEqual => exact ok_bool_congr Int64.le_iff_toInt_le
  | equal => exact ok_bool_congr Int64.toInt_inj.symm
  | notEqual =>
      have hnot : binary .notEqual (.int a) (.int b) = .ok (.bool (a ≠ b)) := by
        simp [binary, equal?]
      exact hnot.trans (ok_bool_congr (not_congr Int64.toInt_inj.symm))

/-! ## Comparisons with each other -/

/-- The comparison of the two is true. -/
def Holds (op : BinaryOp) (a b : Value) : Prop :=
  binary op a b = .ok (.bool true)

/-- The six comparisons of the two agree with each other, as those of one order do. -/
structure Ordered (a b : Value) : Prop where
  lessThan : Holds .lessThan a b ↔ Holds .greaterThan b a
  lessEqual : Holds .lessEqual a b ↔ Holds .lessThan a b ∨ Holds .equal a b
  greaterThan : Holds .greaterThan a b ↔ ¬Holds .lessEqual a b
  greaterEqual : Holds .greaterEqual a b ↔ ¬Holds .lessThan a b
  equal : Holds .equal a b ↔ Holds .lessEqual a b ∧ Holds .greaterEqual a b
  notEqual : Holds .notEqual a b ↔ ¬Holds .equal a b

theorem ordered_int (a b : Int64) : Ordered (.int a) (.int b) := by
  have holds {op : BinaryOp} {x y : Value} {p : Prop} [Decidable p]
      (h : binary op x y = .ok (.bool p)) : Holds op x y ↔ p := by
    simp [Holds, h]
  have lt := holds (binary_int .lessThan a b)
  have le := holds (binary_int .lessEqual a b)
  have gt := holds (binary_int .greaterThan a b)
  have ge := holds (binary_int .greaterEqual a b)
  have eq := holds (binary_int .equal a b)
  have ne := holds (binary_int .notEqual a b)
  have gt' := holds (binary_int .greaterThan b a)
  constructor <;> simp only [lt, le, gt, ge, eq, ne, gt'] <;> omega

end Value

end Monkey
