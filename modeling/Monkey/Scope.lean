import Monkey.Value

/-!
# Scopes

A scope binds names to values and may lie inside another scope. All scopes live in a heap, in the
order in which they were made, so that an environment can be shared: what is declared through one
handle is seen through every other handle on the same scope. The scope around a scope is older than
it, so a walk outward ends.
-/

namespace Monkey

structure Scope where
  /-- Sorted by name. -/
  bindings : List (String × Value)
  parent : Option Env

structure Heap where
  scopes : Array Scope
  parent_lt : ∀ i (h : i < scopes.size), ∀ p ∈ scopes[i].parent, p.id < i

namespace Heap

def empty : Heap :=
  ⟨#[], fun _ h => absurd h (Nat.not_lt_zero _)⟩

/-- Adds a scope inside `parent`, if that is a scope of the heap. -/
def push (h : Heap) (parent : Option Env) : Env × Heap :=
  let parent := parent.filter fun p => p.id < h.scopes.size
  (⟨h.scopes.size⟩,
    ⟨h.scopes.push ⟨[], parent⟩, by
      intro i hi p hp
      rw [Array.getElem_push] at hp
      split at hp
      · exact h.parent_lt i _ p hp
      · simp only [Array.size_push] at hi
        have hlt : p.id < h.scopes.size := by simpa using (Option.mem_filter_iff.mp hp).2
        omega⟩)

/-- Binds a name in a scope; the scopes around it are left alone. -/
def declare (h : Heap) (e : Env) (name : String) (v : Value) : Heap :=
  ⟨h.scopes.modify e.id fun s => { s with bindings := Entries.put name v s.bindings }, by
    intro i hi p hp
    simp only [Array.size_modify] at hi
    rw [Array.getElem_modify] at hp
    split at hp <;> exact h.parent_lt i hi p hp⟩

/-- The value of a name among the scopes from `e` outward, at most `n` of them. -/
def lookupWithin (h : Heap) (name : String) : Nat → Env → Option Value
  | 0, _ => none
  | n + 1, e =>
    match h.scopes[e.id]? with
    | none => none
    | some s =>
      match Entries.get? name s.bindings with
      | some v => some v
      | none =>
        match s.parent with
        | none => none
        | some p => lookupWithin h name n p

/-- The value of a name in the nearest scope, from `e` outward, that binds it. -/
def lookup (h : Heap) (e : Env) (name : String) : Option Value :=
  lookupWithin h name (e.id + 1) e

theorem lookupWithin_eq_lookup (h : Heap) (name : String) {n : Nat} {e : Env} (he : e.id < n) :
    h.lookupWithin name n e = h.lookup e name := by
  have hmono : ∀ (m k : Nat) (e : Env), e.id < m →
      h.lookupWithin name (m + k) e = h.lookupWithin name m e := by
    intro m
    induction m with
    | zero => exact fun _ _ he => absurd he (Nat.not_lt_zero _)
    | succ m ih =>
        intro k e he
        rw [Nat.add_right_comm, lookupWithin, lookupWithin]
        cases hs : h.scopes[e.id]? with
        | none => rfl
        | some s =>
            obtain ⟨hlt, rfl⟩ := Array.getElem?_eq_some_iff.mp hs
            dsimp only
            split
            · rfl
            · split
              · rfl
              · rename_i p hp
                have := h.parent_lt e.id hlt p hp
                exact ih k p (by omega)
  obtain ⟨k, rfl⟩ := Nat.exists_eq_add_of_lt he
  rw [lookup, Nat.add_right_comm, hmono _ _ _ (Nat.lt_succ_self _)]

/-- The search goes from a scope to the one around it. -/
theorem lookup_eq (h : Heap) (e : Env) (name : String) : h.lookup e name =
    match h.scopes[e.id]? with
    | none => none
    | some s =>
      match Entries.get? name s.bindings with
      | some v => some v
      | none =>
        match s.parent with
        | none => none
        | some p => h.lookup p name := by
  rw [lookup, lookupWithin]
  cases hs : h.scopes[e.id]? with
  | none => rfl
  | some s =>
      obtain ⟨hlt, rfl⟩ := Array.getElem?_eq_some_iff.mp hs
      dsimp only
      split
      · rfl
      · split
        · rfl
        · rename_i p hp
          exact h.lookupWithin_eq_lookup name (h.parent_lt e.id hlt p hp)

/-- The names that a scope binds itself, in order. -/
def names (h : Heap) (e : Env) : List String :=
  match h.scopes[e.id]? with
  | some s => Entries.keys s.bindings
  | none => []

def containsLocal (h : Heap) (e : Env) (name : String) : Bool :=
  match h.scopes[e.id]? with
  | some s => Entries.contains name s.bindings
  | none => false

def parent? (h : Heap) (e : Env) : Option Env :=
  h.scopes[e.id]? >>= (·.parent)

end Heap

end Monkey
