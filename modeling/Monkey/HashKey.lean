import Monkey.Text.Decimal

/-!
# Keys of hashes

Integers, booleans and strings can be keys. The keys are totally ordered, and that is the order in
which the entries of a hash are kept and printed.
-/

namespace Monkey

inductive HashKey where
  | int (value : Int64)
  | bool (value : Bool)
  | str (value : String)
deriving DecidableEq

namespace HashKey

/-- Integers come first, then false, then true, then strings. -/
def order : HashKey → HashKey → Ordering
  | int a, int b => compare a b
  | int _, _ => .lt
  | _, int _ => .gt
  | bool a, bool b => compare a b
  | bool _, str _ => .lt
  | str _, bool _ => .gt
  | str a, str b => compare a b

instance : Ord HashKey := ⟨order⟩

def text : HashKey → String
  | int v => Text.ofInt64 v
  | bool v => toString v
  | str v => v

theorem compare_eq_order (a b : HashKey) : compare a b = order a b := rfl

instance : Std.LawfulEqOrd HashKey where
  compare_self {a} := by
    cases a <;> simp [compare_eq_order, order]
  eq_of_compare {a b} h := by
    cases a <;> cases b <;> simp_all [compare_eq_order, order]

instance : Std.TransOrd HashKey where
  eq_swap {a b} := by
    cases a <;> cases b <;>
      simp only [compare_eq_order, order, Ordering.swap_lt, Ordering.swap_gt] <;>
      exact Std.OrientedCmp.eq_swap
  isLE_trans {a b c} hab hbc := by
    cases a <;> cases b <;> cases c <;> simp_all only [compare_eq_order, order] <;>
      first
        | rfl
        | exact Std.TransCmp.isLE_trans hab hbc
        | exact absurd hab (by decide)
        | exact absurd hbc (by decide)

end HashKey

end Monkey
