import Mathlib.Algebra.Group.Int.Defs
import Mathlib.Algebra.Group.Nat.Defs
import Monkey.Proofs.Eval.Plain
import Monkey.Proofs.Scope.Binding
import Monkey.Proofs.Syntax.Erasure

/-!
# Arrays and strings as lists

The builtins on arrays and the index operator fit together as those of lists do: what `push` adds is
the last element, `first` and `rest` take an array apart, and indices are told from lengths without
loss. An array is a value, so that no call changes one that a name is bound to.
-/

namespace Monkey

/-! ## Results -/

namespace Eval

variable {m : Eval Value} {v u : Value}

/-- From every world the evaluation ends with the value, and it leaves the world as it is. -/
def Yields (m : Eval Value) (v : Value) : Prop :=
  ∀ w, m w = .ok v w

theorem Yields.unique (h : Yields m v) (h' : Yields m u) : v = u := by
  have hok := (h .empty).symm.trans (h' .empty)
  cases hok
  rfl

theorem yields_raise (h : v.isSignal = false) : Yields (raise v) v := by
  cases v with
  | signal s => cases h
  | _ => exact fun w => rfl

end Eval

/-- A call of the builtin comes to the value, however few functions may still be entered. -/
def Builtin.Gives (b : Builtin) (args : List Value) (v : Value) : Prop :=
  ∀ (limit n : Nat) (span : Span), (applyWithin limit n (.builtin b) args span).Yields v

/-- The element of `a` at the index `i` is `x`. -/
def Value.Has (a : Value) (i : Int64) (x : Value) : Prop :=
  ∀ span : Span, (Eval.lift span (a.index (.int i))).Yields x

/-- The operator `+` makes `c` of the two. -/
def Value.Adds (a b c : Value) : Prop :=
  ∀ span : Span, (Eval.lift span (Value.binary .add a b)).Yields c

theorem Builtin.gives_of_call {b : Builtin} {args : List Value} {v : Value}
    (h : b.call args = .ok v) (hv : v.isSignal = false) (hsilent : b.written args = "") :
    b.Gives args v := by
  intro limit n span w
  have happly : applyWithin limit n (.builtin b) args span w =
      Eval.lift span (b.call args) { w with output := w.output ++ b.written args } := by
    cases n <;> rfl
  rw [happly, h, hsilent, String.append_empty]
  exact Eval.yields_raise hv w

theorem Builtin.Gives.unique {b : Builtin} {args : List Value} {v u : Value} (h : b.Gives args v)
    (h' : b.Gives args u) : v = u :=
  (h 0 0 .zero).unique (h' 0 0 .zero)

/-! ## Lengths and indices -/

section Lengths

variable {k : Nat} {i : Int64}

theorem toInt_ofNat_add_one (hk : k < 2 ^ 63 - 1) : (Int64.ofNat k + 1).toInt = k + 1 := by
  have hnext : Int64.ofNat (k + 1) = .ofNat k + 1 := Int64.ofNat_add k 1
  rw [← hnext, Int64.toInt_ofNat_of_lt (by omega)]
  rfl

theorem ofNat_succ_sub_one (k : Nat) : Int64.ofNat (k + 1) - 1 = .ofNat k := by
  rw [Int64.ofNat_add]
  exact Int64.add_sub_cancel _ 1

/-- One more than an index is the next one, or it is negative. -/
theorem toInt_add_one_cases (hi : 0 ≤ i) : (i + 1).toInt = i.toInt + 1 ∨
    i.toInt = 2 ^ 63 - 1 ∧ i + 1 < 0 := by
  have hle : 0 ≤ i.toInt := Int64.le_iff_toInt_le.mp hi
  have hlt := i.toInt_lt
  by_cases hmax : i.toInt = 2 ^ 63 - 1
  · obtain rfl : i = .maxValue := Int64.toInt_inj.mp hmax
    exact .inr ⟨hmax, by decide⟩
  · refine .inl ?_
    rw [Int64.toInt_add, Int64.toInt_one]
    exact Int.bmod_eq_of_le (by omega) (by omega)

end Lengths

namespace Value

variable {items : List Value} {v x : Value} {i n : Int64}

theorem item_of_neg (hi : i < 0) : item items i = null :=
  if_pos hi

theorem item_of_nonneg (hi : 0 ≤ i) : item items i = items.getD i.toInt.toNat null := by
  have hneg : ¬i < 0 := by
    rw [Int64.lt_iff_toInt_lt]
    rw [Int64.le_iff_toInt_le] at hi
    omega
  exact if_neg hneg

theorem item_of_length_le (hi : items.length ≤ i.toInt) : item items i = null := by
  have hnonneg : 0 ≤ i := Int64.le_iff_toInt_le.mpr (by rw [Int64.toInt_zero]; omega)
  rw [item_of_nonneg hnonneg, List.getD_eq_getElem?_getD, List.getElem?_eq_none (by omega),
    Option.getD_none]

theorem item_of_getElem? {k : Nat} (hi : i.toInt = k) (hx : items[k]? = some x) :
    item items i = x := by
  have hnonneg : 0 ≤ i := Int64.le_iff_toInt_le.mpr (by rw [Int64.toInt_zero]; omega)
  rw [item_of_nonneg hnonneg, hi, Int.toNat_natCast, List.getD_eq_getElem?_getD, hx,
    Option.getD_some]

/-- Behind its first element a list has the same elements under indices less by one. -/
theorem item_cons (hi : 0 ≤ i) (hitems : items.length < 2 ^ 63 - 1) :
    item (x :: items) (i + 1) = item items i := by
  rcases toInt_add_one_cases hi with hnext | ⟨hmax, hneg⟩
  · have hle : 0 ≤ i.toInt := Int64.le_iff_toInt_le.mp hi
    have hnonneg : 0 ≤ i + 1 := Int64.le_iff_toInt_le.mpr (by rw [Int64.toInt_zero]; omega)
    have hnat : (i.toInt + 1).toNat = i.toInt.toNat + 1 := by omega
    rw [item_of_nonneg hi, item_of_nonneg hnonneg, hnext, hnat, List.getD_cons_succ]
  · rw [item_of_neg hneg, item_of_length_le (by omega)]

theorem item_append_left {us : List Value} (hi : i.toInt < items.length) :
    item (items ++ us) i = item items i := by
  rw [item, item]
  split
  · rfl
  · rename_i hneg
    rw [Int64.lt_iff_toInt_lt, Int64.toInt_zero] at hneg
    rw [List.getD_eq_getElem?_getD, List.getD_eq_getElem?_getD,
      List.getElem?_append_left (by omega)]

theorem has_item (h : PlainAll items) (hx : item items i = x) : (array items).Has i x := by
  subst hx
  exact fun _ => Eval.yields_raise (each_item h i).isSignal_eq_false

/-! ## Pushing -/

/-- `p` is the array `a` of `n` elements with `v` behind them. -/
structure Pushes (n : Int64) (a v p : Value) : Prop where
  length : Builtin.len.Gives [p] (int (n + 1))
  last : Builtin.last.Gives [p] v
  new : p.Has n v
  old : ∀ i, 0 ≤ i → i < n → ∃ x, a.Has i x ∧ p.Has i x
  outside : ∀ i, i < 0 ∨ n < i → p.Has i null

theorem len_array (items : List Value) :
    Builtin.len.Gives [array items] (int (.ofNat items.length)) :=
  Builtin.gives_of_call rfl rfl rfl

theorem gives_push (items : List Value) (v : Value) :
    Builtin.push.Gives [array items, v] (array (items ++ [v])) :=
  Builtin.gives_of_call rfl rfl rfl

theorem pushes_append (h : PlainAll items) (hv : v.Plain) (hlength : items.length < 2 ^ 63 - 1) :
    Pushes (.ofNat items.length) (array items) v (array (items ++ [v])) := by
  have hp : PlainAll (items ++ [v]) := EachAll.append h ⟨hv, trivial⟩
  have hn : (Int64.ofNat items.length).toInt = items.length :=
    Int64.toInt_ofNat_of_lt (by omega)
  have hsucc : Int64.ofNat items.length + 1 = .ofNat (items ++ [v]).length := by
    rw [List.length_append, Int64.ofNat_add]
    rfl
  refine ⟨?_, ?_, ?_, fun i hi hlt => ⟨item items i, has_item h rfl, ?_⟩, fun i hi => ?_⟩
  · rw [hsucc]
    exact len_array _
  · refine Builtin.gives_of_call ?_ hv.isSignal_eq_false rfl
    simp [Builtin.call, Builtin.one]
  · exact has_item hp (item_of_getElem? hn (by simp))
  · rw [Int64.lt_iff_toInt_lt, hn] at hlt
    exact has_item hp (item_append_left hlt)
  · refine has_item hp ?_
    rcases hi with hneg | hbehind
    · exact item_of_neg hneg
    · rw [Int64.lt_iff_toInt_lt, hn] at hbehind
      exact item_of_length_le (by rw [List.length_append, List.length_singleton]; omega)

/-! ## Taking apart -/

/-- `x` is the first and `y` the last of the `n` elements of the array `a`, and `r` is the array
without the first. -/
structure Parts (n : Int64) (a x y r : Value) : Prop where
  first : Builtin.first.Gives [a] x
  has_first : a.Has 0 x
  last : Builtin.last.Gives [a] y
  has_last : a.Has (n - 1) y
  rest : Builtin.rest.Gives [a] r
  length : Builtin.len.Gives [r] (int (n - 1))
  shifted : ∀ i, 0 ≤ i → ∃ z, a.Has (i + 1) z ∧ r.Has i z

theorem gives_first (items : List Value) (hx : x.Plain) :
    Builtin.first.Gives [array (x :: items)] x :=
  Builtin.gives_of_call rfl hx.isSignal_eq_false rfl

theorem gives_rest (x : Value) (items : List Value) :
    Builtin.rest.Gives [array (x :: items)] (array items) :=
  Builtin.gives_of_call rfl rfl rfl

theorem parts_cons (hx : x.Plain) (h : PlainAll items) (hlength : items.length < 2 ^ 63 - 1) :
    Parts (.ofNat (x :: items).length) (array (x :: items)) x
      ((x :: items).getLast (List.cons_ne_nil x items)) (array items) := by
  have hall : PlainAll (x :: items) := ⟨hx, h⟩
  have hlast : (x :: items).getLast (List.cons_ne_nil x items) ∈ x :: items :=
    List.getLast_mem _
  have hpred : Int64.ofNat (x :: items).length - 1 = .ofNat items.length :=
    ofNat_succ_sub_one items.length
  refine ⟨gives_first items hx, has_item hall rfl, ?_, ?_, gives_rest x items, ?_,
    fun i hi => ⟨item items i, has_item hall (item_cons hi hlength), has_item h rfl⟩⟩
  · exact Builtin.gives_of_call rfl ((eachAll_iff _).mp hall _ hlast).isSignal_eq_false rfl
  · rw [hpred]
    refine has_item hall (item_of_getElem? (Int64.toInt_ofNat_of_lt (by omega)) ?_)
    rw [← List.getLast?_eq_some_getLast, List.getLast?_eq_getElem?]
    rfl
  · rw [hpred]
    exact len_array items

/-! ## Copying -/

/-- Taking `first` and `rest` of `a` until its length is 0, and pushing each first element onto
`acc`, comes to `r`. -/
inductive Copies : Value → Value → Value → Prop
  | done {a acc : Value} : Builtin.len.Gives [a] (int 0) → Copies a acc acc
  | next {a a' x acc acc' r : Value} {n : Int64} : Builtin.len.Gives [a] (int n) → n ≠ 0 →
      Builtin.first.Gives [a] x → Builtin.rest.Gives [a] a' → Builtin.push.Gives [acc, x] acc' →
      Copies a' acc' r → Copies a acc r

theorem copies_iff (done : List Value) {r : Value} (h : PlainAll items)
    (hlength : items.length < 2 ^ 63) :
    Copies (array items) (array done) r ↔ r = array (done ++ items) := by
  induction items generalizing done with
  | nil =>
      rw [List.append_nil]
      have hlen : Builtin.len.Gives [array []] (int 0) := len_array []
      constructor
      · rintro (_ | ⟨hn, hne, _⟩)
        · rfl
        · exact absurd (int.inj (hn.unique hlen)) hne
      · rintro rfl
        exact .done hlen
  | cons x items ih =>
      obtain ⟨hx, hitems⟩ := h
      have hne : Int64.ofNat (x :: items).length ≠ 0 := by
        intro hzero
        have hint := congrArg Int64.toInt hzero
        rw [Int64.toInt_ofNat_of_lt hlength, Int64.toInt_zero, List.length_cons] at hint
        omega
      have hlen := len_array (x :: items)
      have hfirst := gives_first items hx
      have hrest := gives_rest x items
      have hpush := gives_push done x
      have hih := ih (done ++ [x]) hitems (Nat.lt_of_succ_lt hlength)
      rw [List.append_cons, ← hih]
      constructor
      · rintro (hzero | ⟨_, _, hx', hrest', hpush', htail⟩)
        · exact absurd (int.inj (hlen.unique hzero)) hne
        · obtain rfl := hx'.unique hfirst
          obtain rfl := hrest'.unique hrest
          obtain rfl := hpush'.unique hpush
          exact htail
      · exact .next hlen hne hfirst hrest hpush

/-! ## Strings -/

theorem len_str (s : String) : Builtin.len.Gives [str s] (int (.ofNat s.length)) :=
  Builtin.gives_of_call rfl rfl rfl

theorem adds_str (s t : String) : (str s).Adds (str t) (str (s ++ t)) :=
  fun _ _ => rfl

theorem adds_length (s t : String) : (int (.ofNat s.length)).Adds (int (.ofNat t.length))
    (int (.ofNat (s ++ t).length)) := by
  rw [String.length_append, Int64.ofNat_add]
  exact fun _ _ => rfl

end Value

/-! ## All together -/

namespace Builtin

open Value

/-- What the builtins and indices have to do with each other on an array of `n` elements. -/
structure ArrayLaws (items : List Value) (v : Value) (n : Int64) : Prop where
  length : len.Gives [array items] (int n)
  /-- Neither the length nor the next one is cut off. -/
  toInt_length : n.toInt = items.length ∧ (n + 1).toInt = items.length + 1
  has_iff : ∀ (i : Int64) (x : Value), 0 ≤ i → i < n →
    ((array items).Has i x ↔ items[i.toInt.toNat]? = some x)
  push : ∃ p, push.Gives [array items, v] p ∧ Pushes n (array items) v p
  parts : items ≠ [] → ∃ x y r, Parts n (array items) x y r
  empty : items = [] → first.Gives [array items] null ∧ last.Gives [array items] null ∧
    rest.Gives [array items] null
  /-- What an array is taken apart into makes an equal array when it is put together. -/
  copies_iff : ∀ r, Copies (array items) (array []) r ↔ r = array items

/-- The length of two strings in a row, told by the operators of the language. -/
structure StringLaws (s t : String) (a b c : Int64) : Prop where
  left : len.Gives [str s] (int a)
  right : len.Gives [str t] (int b)
  both : ∃ u, (str s).Adds (str t) u ∧ len.Gives [u] (int c)
  sum : (int a).Adds (int b) (int c)
  toInt_length : a.toInt = s.length ∧ b.toInt = t.length
  toInt_both : s.length + t.length < 2 ^ 63 → c.toInt = s.length + t.length

variable {items : List Value} {v : Value}

theorem arrayLaws (h : PlainAll items) (hv : v.Plain) (hlength : items.length < 2 ^ 63 - 1) :
    ArrayLaws items v (.ofNat items.length) where
  length := len_array items
  toInt_length := ⟨Int64.toInt_ofNat_of_lt (by omega), toInt_ofNat_add_one hlength⟩
  has_iff i x hi hlt := by
    have hle : 0 ≤ i.toInt := Int64.le_iff_toInt_le.mp hi
    rw [Int64.lt_iff_toInt_lt, Int64.toInt_ofNat_of_lt (by omega)] at hlt
    have hget : items[i.toInt.toNat]? = some items[i.toInt.toNat] :=
      List.getElem?_eq_getElem (by omega)
    have hhas := has_item h (item_of_getElem? (Int.toNat_of_nonneg hle).symm hget)
    rw [hget, Option.some.injEq]
    constructor
    · exact fun hx => (hhas .zero).unique (hx .zero)
    · rintro rfl
      exact hhas
  push := ⟨_, gives_push items v, pushes_append h hv hlength⟩
  parts hne := by
    obtain ⟨x, items, rfl⟩ := List.exists_cons_of_ne_nil hne
    exact ⟨x, _, _, parts_cons h.1 h.2 (Nat.lt_of_succ_lt hlength)⟩
  empty hnil := by
    subst hnil
    exact ⟨gives_of_call rfl rfl rfl, gives_of_call rfl rfl rfl, gives_of_call rfl rfl rfl⟩
  copies_iff _ := Value.copies_iff [] h (by omega)

theorem stringLaws {s t : String} (hs : s.length < 2 ^ 63) (ht : t.length < 2 ^ 63) :
    StringLaws s t (.ofNat s.length) (.ofNat t.length) (.ofNat (s ++ t).length) where
  left := len_str s
  right := len_str t
  both := ⟨_, adds_str s t, len_str _⟩
  sum := adds_length s t
  toInt_length := ⟨Int64.toInt_ofNat_of_lt hs, Int64.toInt_ofNat_of_lt ht⟩
  toInt_both hboth := by
    rw [String.length_append, Int64.toInt_ofNat_of_lt hboth, Int.natCast_add]

/-- The builtins on arrays and strings obey the laws of lists. They leave the world as it is, and
no program changes the array that is bound to a name that it does not bind itself. -/
theorem list_laws {s t : String} (h : PlainAll items) (hv : v.Plain)
    (hlength : items.length < 2 ^ 63 - 1) (hs : s.length < 2 ^ 63) (ht : t.length < 2 ^ 63) :
    (∃ n, ArrayLaws items v n) ∧ (∃ a b c, StringLaws s t a b c) ∧
    ∀ (limit : Nat) (p : Program) (env e : Env) (w : World) (name : String),
      name ∉ Stmt.targetsAll p → w.heap.lookup e name = some (array items) →
      (Program.run limit env p w).2.heap.lookup e name = some (array items) := by
  refine ⟨⟨_, arrayLaws h hv hlength⟩, ⟨_, _, _, stringLaws hs ht⟩,
    fun limit p env e w name hname hbound => ?_⟩
  have hframe : w.Frame env (Stmt.targetsAll p) (Program.run limit env p w).2 :=
    (Stmt.evalAll_keeps p .null (kept_frame limit limit env _ w)).settle (.refl env _ w)
  rw [hframe.lookup_eq hname (Heap.lt_of_lookup hbound), hbound]

/-- An array of two elements, and a program that pushes a third one onto it and takes the first one
away. -/
theorem list_laws_two_elements :
    let items := [int 1, str "two"]
    let calls : Program :=
      [.bind ⟨"b", .zero⟩
          (.call (.ident "push" .zero) [.ident "a" .zero, .int 3 .zero] .zero) .zero,
        .bind ⟨"c", .zero⟩ (.call (.ident "rest" .zero) [.ident "b" .zero] .zero) .zero]
    let env := World.empty.newEnv.1
    let w : World :=
      { World.empty.newEnv.2 with heap := World.empty.newEnv.2.heap.declare env "a" (array items) }
    let after := (Program.run 0 env calls w).2.heap
    (PlainAll items ∧ (int 3).Plain ∧ items.length < 2 ^ 63 - 1 ∧ "é".length < 2 ^ 63 ∧
      "ab".length < 2 ^ 63 ∧ "a" ∉ Stmt.targetsAll calls) ∧
    (∃ p, push.Gives [array items, int 3] p ∧ p.Has 2 (int 3) ∧ p.Has 3 null ∧
      after.lookup env "b" = some p) ∧
    Copies (array items) (array []) (array items) ∧
    (∃ u, (str "é").Adds (str "ab") u ∧ len.Gives [u] (int 3)) ∧
    after.lookup env "a" = some (array items) ∧
    after.lookup env "c" = some (array [str "two", int 3]) := by
  intro items calls env w after
  have hitems : PlainAll items := ⟨trivial, trivial, trivial⟩
  have hv : (int 3).Plain := trivial
  have hlength : items.length < 2 ^ 63 - 1 := by decide
  have hs : "é".length < 2 ^ 63 := by decide
  have ht : "ab".length < 2 ^ 63 := by decide
  have ha : "a" ∉ Stmt.targetsAll calls := by decide
  obtain ⟨⟨n, harray⟩, ⟨a, b, c, hstring⟩, hprogram⟩ := list_laws hitems hv hlength hs ht
  obtain rfl : n = 2 := Int64.toInt_inj.mp harray.toInt_length.1
  obtain rfl : c = 3 := Int64.toInt_inj.mp (hstring.toInt_both (by decide))
  obtain ⟨p, hpush, hp⟩ := harray.push
  have hb : after.lookup env "b" = some (array (items ++ [int 3])) := rfl
  refine ⟨⟨hitems, hv, hlength, hs, ht, ha⟩,
    ⟨p, hpush, hp.new, hp.outside 3 (.inr (by decide)), ?_⟩,
    (harray.copies_iff _).mpr rfl, hstring.both, hprogram 0 calls env env w "a" ha rfl, rfl⟩
  rw [hb, hpush.unique (gives_push items (int 3))]

end Builtin

end Monkey
