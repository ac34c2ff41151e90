import Monkey.Eval

/-!
# What values contain

Which functions a value has inside, and whether a signal. An operation on values makes no function
and no signal: what its result contains, its operands contain, so that a condition on the functions
and signals inside passes from these to that, and from the values that scopes bind names to, to
those that are looked up.
-/

namespace Monkey

/-! ## The functions and signals in a value -/

mutual
/-- All functions in the value are as `p` says; there is a signal only if `q`. -/
def Value.Each (p : Closure → Prop) (q : Prop) : Value → Prop
  | .int _ | .bool _ | .str _ | .null | .builtin _ => True
  | .array items => Value.EachAll p q items
  | .hash entries => Value.EachEntries p q entries
  | .closure c => p c
  | .signal s => q ∧ s.Each p q

def Value.EachAll (p : Closure → Prop) (q : Prop) : List Value → Prop
  | [] => True
  | v :: vs => v.Each p q ∧ Value.EachAll p q vs

def Value.EachEntries (p : Closure → Prop) (q : Prop) : List (HashKey × Value) → Prop
  | [] => True
  | (_, v) :: es => v.Each p q ∧ Value.EachEntries p q es

def Signal.Each (p : Closure → Prop) (q : Prop) : Signal → Prop
  | .ret v => v.Each p q
  | .fault _ => True
end

namespace Value

variable {p : Closure → Prop} {q : Prop}

theorem eachAll_iff (vs : List Value) : EachAll p q vs ↔ ∀ v ∈ vs, v.Each p q := by
  induction vs with
  | nil => simp [EachAll]
  | cons v vs ih => simp [EachAll, ih]

theorem eachEntries_iff (es : List (HashKey × Value)) :
    EachEntries p q es ↔ ∀ e ∈ es, e.2.Each p q := by
  induction es with
  | nil => simp [EachEntries]
  | cons e es ih =>
      obtain ⟨k, v⟩ := e
      simp [EachEntries, ih]

theorem EachAll.append {vs us : List Value} (hvs : EachAll p q vs) (hus : EachAll p q us) :
    EachAll p q (vs ++ us) :=
  (eachAll_iff _).mpr <|
    List.forall_mem_append.mpr ⟨(eachAll_iff vs).mp hvs, (eachAll_iff us).mp hus⟩

/-- Without signals inside, the value is none itself. -/
theorem Each.isSignal_eq_false {v : Value} (h : v.Each p False) : v.isSignal = false := by
  cases v with
  | signal s => exact h.1.elim
  | _ => rfl

end Value

section Mono

variable {p p' : Closure → Prop} {q : Prop}

mutual
theorem Value.Each.mono (hp : ∀ c, p c → p' c) :
    {v : Value} → v.Each p q → v.Each p' q
  | .int _, _ | .bool _, _ | .str _, _ | .null, _ | .builtin _, _ => trivial
  | .array _, h => Value.EachAll.mono hp h
  | .hash _, h => Value.EachEntries.mono hp h
  | .closure c, h => hp c h
  | .signal _, h => ⟨h.1, Signal.Each.mono hp h.2⟩

theorem Value.EachAll.mono (hp : ∀ c, p c → p' c) :
    {vs : List Value} → Value.EachAll p q vs → Value.EachAll p' q vs
  | [], _ => trivial
  | _ :: _, h => ⟨Value.Each.mono hp h.1, Value.EachAll.mono hp h.2⟩

theorem Value.EachEntries.mono (hp : ∀ c, p c → p' c) :
    {es : List (HashKey × Value)} → Value.EachEntries p q es → Value.EachEntries p' q es
  | [], _ => trivial
  | (_, _) :: _, h => ⟨Value.Each.mono hp h.1, Value.EachEntries.mono hp h.2⟩

theorem Signal.Each.mono (hp : ∀ c, p c → p' c) :
    {s : Signal} → s.Each p q → s.Each p' q
  | .ret _, h => Value.Each.mono hp h
  | .fault _, _ => trivial
end

end Mono

/-! ## Maps -/

namespace Entries

variable {κ ν : Type} {k : κ} {v : ν}

theorem mem_of_get? [DecidableEq κ] {m : List (κ × ν)} (h : get? k m = some v) : (k, v) ∈ m := by
  induction m with
  | nil => cases h
  | cons e m ih =>
      obtain ⟨l, w⟩ := e
      rw [get?] at h
      split at h
      · rename_i hk
        cases h
        exact hk ▸ List.mem_cons_self
      · exact List.mem_cons_of_mem _ (ih h)

theorem mem_put [Ord κ] {m : List (κ × ν)} {e : κ × ν} (h : e ∈ put k v m) :
    e = (k, v) ∨ e ∈ m := by
  induction m with
  | nil => exact .inl (List.mem_singleton.mp h)
  | cons f m ih =>
      obtain ⟨l, w⟩ := f
      rw [put] at h
      split at h
      · exact List.mem_cons.mp h
      · exact (List.mem_cons.mp h).imp_right (List.mem_cons_of_mem _)
      · rcases List.mem_cons.mp h with rfl | h
        · exact .inr List.mem_cons_self
        · exact (ih h).imp_right (List.mem_cons_of_mem _)

end Entries

/-! ## Operations -/

namespace Value

variable {p : Closure → Prop} {q : Prop}

theorem each_unary {op : UnaryOp} {v r : Value} (h : unary op v = .ok r) : r.Each p q := by
  cases op with
  | not =>
      cases h
      trivial
  | negate =>
      cases v <;> cases h
      trivial

theorem each_binary {op : BinaryOp} {a b r : Value} (h : binary op a b = .ok r) :
    r.Each p q := by
  unfold binary at h
  split at h
  all_goals try split at h
  all_goals cases h
  all_goals trivial

theorem each_getD {o : Option Value} (h : ∀ v ∈ o, v.Each p q) : (o.getD null).Each p q := by
  cases o with
  | none => trivial
  | some v => exact h v rfl

theorem each_item {items : List Value} (h : EachAll p q items) (i : Int64) :
    (item items i).Each p q := by
  rw [item]
  split
  · trivial
  · rw [List.getD_eq_getElem?_getD]
    exact each_getD fun v hv => (eachAll_iff items).mp h v (List.mem_of_getElem? hv)

theorem each_get? {entries : List (HashKey × Value)} (h : EachEntries p q entries) (k : HashKey) :
    ((Entries.get? k entries).getD null).Each p q :=
  each_getD fun _ hv => (eachEntries_iff entries).mp h _ (Entries.mem_of_get? hv)

theorem each_put {entries : List (HashKey × Value)} (k : HashKey) {v : Value} (hv : v.Each p q)
    (h : EachEntries p q entries) : EachEntries p q (Entries.put k v entries) := by
  refine (eachEntries_iff _).mpr fun e he => ?_
  rcases Entries.mem_put he with rfl | he
  · exact hv
  · exact (eachEntries_iff entries).mp h e he

theorem each_index {a b r : Value} (ha : a.Each p q) (h : a.index b = .ok r) : r.Each p q := by
  unfold index at h
  split at h
  · cases h
    exact each_item ha _
  · cases hk : b.hashKey with
    | error cause =>
        rw [hk] at h
        cases h
    | ok k =>
        rw [hk] at h
        cases h
        exact each_get? ha k
  · cases h

end Value

namespace Builtin

open Value (EachAll eachAll_iff each_getD)

theorem eq_singleton_of_one {f : Value → Except FaultCause Value} {args : List Value} {r : Value}
    (h : one f args = .ok r) : ∃ v, args = [v] ∧ f v = .ok r := by
  unfold one at h
  split at h
  · exact ⟨_, rfl, h⟩
  · cases h

theorem eq_array_of_push {args : List Value} {r : Value} (h : push.call args = .ok r) :
    ∃ items v, args = [.array items, v] ∧ r = .array (items ++ [v]) := by
  rcases args with _ | ⟨a, _ | ⟨v, _ | _⟩⟩
  · cases h
  · cases a <;> cases h
  · cases a <;> cases h
    exact ⟨_, v, rfl, rfl⟩
  · cases a <;> cases h

theorem each_call {p : Closure → Prop} {q : Prop} {b : Builtin} {args : List Value} {r : Value}
    (hargs : EachAll p q args) (h : b.call args = .ok r) : r.Each p q := by
  cases b with
  | len =>
      obtain ⟨v, rfl, h⟩ := eq_singleton_of_one h
      cases v <;> cases h <;> trivial
  | first =>
      obtain ⟨v, rfl, h⟩ := eq_singleton_of_one h
      cases v <;> cases h
      rename_i items
      exact each_getD fun v hv => (eachAll_iff items).mp hargs.1 v (List.mem_of_head? hv)
  | last =>
      obtain ⟨v, rfl, h⟩ := eq_singleton_of_one h
      cases v <;> cases h
      rename_i items
      exact each_getD fun v hv => (eachAll_iff items).mp hargs.1 v (List.mem_of_getLast? hv)
  | rest =>
      obtain ⟨v, rfl, h⟩ := eq_singleton_of_one h
      cases v with
      | array items =>
          cases items <;> cases h
          · trivial
          · exact hargs.1.2
      | _ => cases h
  | push =>
      obtain ⟨items, v, rfl, rfl⟩ := eq_array_of_push h
      exact EachAll.append hargs.1 ⟨hargs.2.1, trivial⟩
  | puts =>
      cases h
      trivial

end Builtin

/-! ## Scopes -/

/-- The values that the scopes bind names to are as `P` says. -/
def Heap.All (P : Value → Prop) (h : Heap) : Prop :=
  ∀ (i : Nat) (s : Scope), h.scopes[i]? = some s → ∀ b ∈ s.bindings, P b.2

namespace Heap.All

variable {P Q : Value → Prop} {h : Heap}

theorem mono (hh : h.All P) (hPQ : ∀ v, P v → Q v) : h.All Q :=
  fun i s hs b hb => hPQ b.2 (hh i s hs b hb)

theorem empty : Heap.empty.All P := nofun

theorem push (hh : h.All P) (parent : Option Env) : (h.push parent).2.All P := by
  intro i s hs
  simp only [Heap.push, Array.getElem?_push] at hs
  split at hs
  · cases hs
    exact nofun
  · exact hh i s hs

theorem declare (hh : h.All P) (env : Env) (name : String) {v : Value} (hv : P v) :
    (h.declare env name v).All P := by
  intro i s hs
  simp only [Heap.declare, Array.getElem?_modify] at hs
  split at hs
  · obtain ⟨old, hold, rfl⟩ := Option.map_eq_some_iff.mp hs
    intro b hb
    rcases Entries.mem_put hb with rfl | hb
    · exact hv
    · exact hh i old hold b hb
  · exact hh i s hs

theorem lookup (hh : h.All P) {env : Env} {name : String} {v : Value}
    (hv : h.lookup env name = some v) : P v := by
  suffices hwithin : ∀ n env, h.lookupWithin name n env = some v → P v from hwithin _ _ hv
  intro n
  induction n with
  | zero => exact nofun
  | succ n ih =>
      intro env hv
      rw [Heap.lookupWithin] at hv
      split at hv
      · cases hv
      rename_i s hs
      split at hv
      · rename_i v' hv'
        cases hv
        exact hh _ s hs _ (Entries.mem_of_get? hv')
      · split at hv
        · cases hv
        · exact ih _ hv

end Heap.All

end Monkey
