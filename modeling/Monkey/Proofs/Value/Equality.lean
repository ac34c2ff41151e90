import Monkey.Builtin
import Monkey.Proofs.Syntax.Erasure
import Monkey.Proofs.Value.Entries
import Monkey.Value.Operation

/-!
# Equality

Two values are equal if they are the same value once nothing but its identity is left of each
function in them. So equality is an equivalence on values nested to any depth. The operators `==`
and `!=` and the keys of hashes are defined on fewer values, and there they agree with it.
-/

namespace Monkey

/-! ## Values without what functions are made of -/

/-- The function with nothing but its identity. -/
def Closure.bare (c : Closure) : Closure :=
  ⟨c.id, [], .mk [] .zero, ⟨0⟩⟩

theorem Closure.bare_eq_iff {c d : Closure} : c.bare = d.bare ↔ c.id = d.id := by
  simp [bare]

mutual
/-- The value with nothing but their identities left of the functions in it. -/
def Value.bare : Value → Value
  | .array items => .array (Value.bareAll items)
  | .hash entries => .hash (Value.bareEntries entries)
  | .closure c => .closure c.bare
  | .signal s => .signal s.bare
  | v => v

def Value.bareAll : List Value → List Value
  | [] => []
  | v :: vs => v.bare :: Value.bareAll vs

def Value.bareEntries : List (HashKey × Value) → List (HashKey × Value)
  | [] => []
  | (k, v) :: es => (k, v.bare) :: Value.bareEntries es

def Signal.bare : Signal → Signal
  | .ret v => .ret v.bare
  | .fault f => .fault f
end

mutual
/-- Values of two kinds are told apart on both sides, so only pairs of one kind are left. -/
theorem Value.same_iff_bare : (a b : Value) → (a.same b = true ↔ a.bare = b.bare)
  | .int _, b => by cases b <;> simp [Value.same, Value.bare]
  | .bool _, b => by cases b <;> simp [Value.same, Value.bare]
  | .str _, b => by cases b <;> simp [Value.same, Value.bare]
  | .null, b => by cases b <;> simp [Value.same, Value.bare]
  | .array as, b => by cases b <;> simp [Value.same, Value.bare, Value.sameAll_iff_bare as]
  | .hash as, b => by cases b <;> simp [Value.same, Value.bare, Value.sameEntries_iff_bare as]
  | .closure _, b => by cases b <;> simp [Value.same, Value.bare, Closure.bare_eq_iff]
  | .builtin _, b => by cases b <;> simp [Value.same, Value.bare]
  | .signal s, b => by cases b <;> simp [Value.same, Value.bare, s.same_iff_bare]

theorem Value.sameAll_iff_bare : (as bs : List Value) →
    (Value.sameAll as bs = true ↔ Value.bareAll as = Value.bareAll bs)
  | [], bs => by cases bs <;> simp [Value.sameAll, Value.bareAll]
  | a :: as, bs => by
    cases bs <;> simp [Value.sameAll, Value.bareAll, a.same_iff_bare, Value.sameAll_iff_bare as]

theorem Value.sameEntries_iff_bare : (es ds : List (HashKey × Value)) →
    (Value.sameEntries es ds = true ↔ Value.bareEntries es = Value.bareEntries ds)
  | [], ds => by cases ds <;> simp [Value.sameEntries, Value.bareEntries]
  | _ :: _, [] => by simp [Value.sameEntries, Value.bareEntries]
  | (_, v) :: es, (_, _) :: _ => by
    simp [Value.sameEntries, Value.bareEntries, v.same_iff_bare, Value.sameEntries_iff_bare es]

theorem Signal.same_iff_bare : (s t : Signal) → (s.same t = true ↔ s.bare = t.bare)
  | .ret v, t => by cases t <;> simp [Signal.same, Signal.bare, v.same_iff_bare]
  | .fault _, t => by cases t <;> simp [Signal.same, Signal.bare]
end

namespace Value

variable {a b : Value}

/-! ## An equivalence -/

theorem same_self (v : Value) : v.same v = true :=
  (same_iff_bare v v).mpr rfl

theorem same_equivalence : Equivalence fun a b : Value => a.same b = true where
  refl := same_self
  symm {a b} h := (same_iff_bare b a).mpr ((same_iff_bare a b).mp h).symm
  trans {a b c} hab hbc :=
    (same_iff_bare a c).mpr (((same_iff_bare a b).mp hab).trans ((same_iff_bare b c).mp hbc))

theorem typeName_bare (v : Value) : v.bare.typeName = v.typeName := by
  cases v with
  | signal s => cases s <;> rfl
  | _ => rfl

theorem typeName_eq_of_same (h : a.same b = true) : a.typeName = b.typeName := by
  rw [← typeName_bare a, (same_iff_bare a b).mp h, typeName_bare]

theorem sameAll_iff {as bs : List Value} :
    sameAll as bs = true ↔ List.Forall₂ (fun a b => a.same b = true) as bs := by
  induction as generalizing bs with
  | nil => cases bs <;> simp [sameAll]
  | cons a as ih => cases bs <;> simp [sameAll, ih]

theorem same_builtin_iff {f g : Builtin} :
    (builtin f).same (builtin g) = true ↔ f.name = g.name := by
  rw [same, decide_eq_true_iff]
  refine ⟨congrArg Builtin.name, fun h => ?_⟩
  have hname := Builtin.ofName?_name f
  rw [h, Builtin.ofName?_name] at hname
  exact (Option.some.inj hname).symm

/-- Arrays and hashes are equal part by part, and signals by what they carry. Functions are equal
by identity and builtins by name. -/
structure EqualByParts : Prop where
  typeName : ∀ a b : Value, a.same b = true → a.typeName = b.typeName
  array : ∀ as bs : List Value,
    (array as).same (array bs) = true ↔ List.Forall₂ (fun a b => a.same b = true) as bs
  hash : ∀ es ds : List (HashKey × Value), (hash es).same (hash ds) = true ↔
    List.Forall₂ (fun e d => e.1 = d.1 ∧ e.2.same d.2 = true) es ds
  ret : ∀ a b : Value, (signal (.ret a)).same (signal (.ret b)) = true ↔ a.same b = true
  fault : ∀ f g : Fault, (signal (.fault f)).same (signal (.fault g)) = true ↔ f = g
  closure : ∀ c d : Closure, (closure c).same (closure d) = true ↔ c.id = d.id
  builtin : ∀ f g : Builtin, (builtin f).same (builtin g) = true ↔ f.name = g.name

theorem equalByParts : EqualByParts where
  typeName _ _ := typeName_eq_of_same
  array as bs := by rw [same, sameAll_iff]
  hash es ds := by rw [same, sameEntries_iff]
  ret a b := by rw [same, Signal.same]
  fault f g := by rw [same, Signal.same, decide_eq_true_iff]
  closure c d := by rw [same, decide_eq_true_iff]
  builtin _ _ := same_builtin_iff

/-! ## Operators -/

/-- The operator gives a value for the two. -/
def Defined (op : BinaryOp) (a b : Value) : Prop :=
  ∃ v, binary op a b = .ok v

/-- Integers and strings are compared with their like, booleans and `null` also with each other. -/
inductive Comparable : Value → Value → Prop
  | ints {a b : Int64} : Comparable (int a) (int b)
  | strs {a b : String} : Comparable (str a) (str b)
  | bools {a b : Bool} : Comparable (bool a) (bool b)
  | nulls : Comparable null null
  | bool_null {a : Bool} : Comparable (bool a) null
  | null_bool {a : Bool} : Comparable null (bool a)

theorem comparable_iff : Comparable a b ↔ ∃ e, equal? a b = some e := by
  constructor
  · intro h
    cases h <;> exact ⟨_, rfl⟩
  · rintro ⟨e, he⟩
    unfold equal? at he
    split at he
    · exact .ints
    · exact .bools
    · exact .strs
    · exact .nulls
    · exact .bool_null
    · exact .null_bool
    · cases he

theorem equal?_comm (a b : Value) : equal? a b = equal? b a := by
  cases a <;> cases b <;> simp [equal?, eq_comm]

theorem same_of_equal? {e : Bool} (h : equal? a b = some e) : a.same b = e := by
  unfold equal? at h
  split at h <;> cases h <;> simp [same]

example : null.equal? (bool false) = some false := rfl

theorem binary_equal_eq (a b : Value) : binary .equal a b =
    (equal? a b).elim (.error (mismatch .equal a b)) fun e => .ok (bool e) := by
  rw [binary]
  cases equal? a b <;> rfl

theorem binary_notEqual_eq (a b : Value) : binary .notEqual a b =
    (equal? a b).elim (.error (mismatch .notEqual a b)) fun e => .ok (bool !e) := by
  rw [binary]
  cases equal? a b <;> rfl

theorem elim_eq_ok_iff {o : Option Bool} {cause : FaultCause} {f : Bool → Value} :
    (∃ v, o.elim (Except.error cause) (fun e => .ok (f e)) = .ok v) ↔ ∃ e, o = some e := by
  cases o <;> simp

theorem defined_equal_iff : Defined .equal a b ↔ Comparable a b := by
  rw [Defined, binary_equal_eq, elim_eq_ok_iff, comparable_iff]

theorem defined_notEqual_iff : Defined .notEqual a b ↔ Comparable a b := by
  rw [Defined, binary_notEqual_eq, elim_eq_ok_iff, comparable_iff]

theorem comparable_comm : Comparable a b ↔ Comparable b a := by
  rw [comparable_iff, comparable_iff, equal?_comm]

/-! ## Keys -/

theorem hashKey_toValue (k : HashKey) : k.toValue.hashKey = .ok k := by
  cases k <;> rfl

theorem eq_toValue {v : Value} {k : HashKey} (h : v.hashKey = .ok k) : v = k.toValue := by
  cases v <;> cases h <;> rfl

theorem same_toValue_iff {k l : HashKey} : k.toValue.same l.toValue = true ↔ k = l := by
  cases k <;> cases l <;> simp [HashKey.toValue, same]

/-! ## All together -/

/-- What the operators `==` and `!=` and the keys of hashes tell of two values is whether they are
equal. -/
structure Compared (a b : Value) : Prop where
  defined : Defined .equal a b ↔ Comparable a b
  equal : Defined .equal a b → binary .equal a b = .ok (bool (a.same b))
  defined_notEqual : Defined .notEqual a b ↔ Defined .equal a b
  notEqual : Defined .notEqual a b → binary .notEqual a b = .ok (bool !a.same b)
  equal_swap : Defined .equal a b ↔ Defined .equal b a
  notEqual_swap : Defined .notEqual a b ↔ Defined .notEqual b a
  hashable : ∀ k : HashKey, a.hashKey = .ok k ↔ a = k.toValue
  hashKey : ∀ k l : HashKey, a.hashKey = .ok k → b.hashKey = .ok l → (k = l ↔ a.same b = true)

theorem compared (a b : Value) : Compared a b where
  defined := defined_equal_iff
  equal h := by
    obtain ⟨e, he⟩ := comparable_iff.mp (defined_equal_iff.mp h)
    rw [binary_equal_eq, he, same_of_equal? he, Option.elim_some]
  defined_notEqual := defined_notEqual_iff.trans defined_equal_iff.symm
  notEqual h := by
    obtain ⟨e, he⟩ := comparable_iff.mp (defined_notEqual_iff.mp h)
    rw [binary_notEqual_eq, he, same_of_equal? he, Option.elim_some]
  equal_swap := by rw [defined_equal_iff, defined_equal_iff, comparable_comm]
  notEqual_swap := by rw [defined_notEqual_iff, defined_notEqual_iff, comparable_comm]
  hashable k := ⟨eq_toValue, fun h => h ▸ hashKey_toValue k⟩
  hashKey k l hk hl := by
    rw [eq_toValue hk, eq_toValue hl, same_toValue_iff]

/-- Equality of values nested to any depth is an equivalence. The operators and the keys of hashes,
where they are defined, agree with it. -/
theorem equality_laws : (Equivalence fun a b : Value => a.same b = true) ∧ EqualByParts ∧
    ∀ a b : Value, Compared a b :=
  ⟨same_equivalence, equalByParts, compared⟩

end Value

end Monkey
