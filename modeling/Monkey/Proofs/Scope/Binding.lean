import Mathlib.Logic.Relation
import Monkey.Proofs.Eval.Frame

/-!
# Names bound in scopes

A name is looked for in a scope and then outward, scope by scope, up to the first that binds it. So
what is bound in a scope shows only where the way outward leads through it and no scope before it
binds the name.
-/

namespace Monkey

/-- The scope itself binds the name. -/
def Heap.Binds (h : Heap) (env : Env) (name : String) (v : Value) : Prop :=
  ∃ s, h.scopes[env.id]? = some s ∧ Entries.get? name s.bindings = some v

namespace Heap

variable {h : Heap} {env e p k : Env} {name other : String} {v u : Value}

/-! ## The scope itself -/

theorem Binds.lt (hb : h.Binds env name v) : env.id < h.scopes.size := by
  obtain ⟨s, hs, -⟩ := hb
  exact (Array.getElem?_eq_some_iff.mp hs).1

theorem Binds.lookup (hb : h.Binds env name v) : h.lookup env name = some v := by
  obtain ⟨s, hs, hv⟩ := hb
  rw [lookup_eq, hs]
  simp only [hv]

theorem Binds.push (hb : h.Binds env name v) (parent : Option Env) :
    (h.push parent).2.Binds env name v := by
  obtain ⟨s, hs, hv⟩ := hb
  exact ⟨s, getElem?_push parent hs, hv⟩

theorem Binds.declare (hb : h.Binds env name v) (hne : env.id ≠ e.id) :
    (h.declare e other u).Binds env name v := by
  obtain ⟨s, hs, hv⟩ := hb
  exact ⟨s, (getElem?_declare_of_ne other u hne).trans hs, hv⟩

theorem binds_declare (henv : env.id < h.scopes.size) :
    (h.declare env name v).Binds env name v :=
  ⟨_, getElem?_declare name v (Array.getElem?_eq_getElem henv), by
    rw [Entries.get?_put, if_pos rfl]⟩

theorem binds_push_iff (parent : Option Env) (henv : env.id < h.scopes.size) :
    (h.push parent).2.Binds env name v ↔ h.Binds env name v := by
  have hs := Array.getElem?_eq_getElem henv
  rw [Binds, Binds, getElem?_push parent hs, hs]

theorem not_binds_push (parent : Option Env) :
    ¬(h.push parent).2.Binds (h.push parent).1 name v := by
  rintro ⟨s, hs, hv⟩
  simp only [Heap.push, Array.getElem?_push_size, Option.some.injEq] at hs
  cases hs
  cases hv

theorem binds_declare_iff (he : e.id < h.scopes.size) :
    (h.declare e name v).Binds env other u ↔
      env = e ∧ other = name ∧ u = v ∨ ¬(env = e ∧ other = name) ∧ h.Binds env other u := by
  by_cases henv : env = e
  · subst henv
    have hs := Array.getElem?_eq_getElem he
    simp only [Binds, getElem?_declare name v hs, hs, Option.some.injEq, exists_eq_left',
      Entries.get?_put]
    by_cases hother : other = name
    · simp [hother, eq_comm]
    · simp [hother]
  · have hid : env.id ≠ e.id := fun hid => henv (congrArg Env.mk hid)
    simp [Binds, getElem?_declare_of_ne name v hid, henv]

theorem containsLocal_iff : h.containsLocal env name = true ↔ ∃ v, h.Binds env name v := by
  unfold containsLocal Binds Entries.contains
  cases h.scopes[env.id]? with
  | none => simp
  | some s => simp [Option.isSome_iff_exists]

/-! ## The scope around it -/

theorem parent?_lt (hp : h.parent? e = some p) : p.id < e.id := by
  obtain ⟨s, hs, hsp⟩ := Option.bind_eq_some_iff.mp hp
  obtain ⟨hlt, rfl⟩ := Array.getElem?_eq_some_iff.mp hs
  exact h.parent_lt e.id hlt p hsp

@[simp] theorem parent?_declare (e : Env) (name : String) (v : Value) :
    (h.declare e name v).parent? env = h.parent? env := by
  unfold parent?
  by_cases hid : env.id = e.id
  · rw [hid]
    cases hs : h.scopes[e.id]? with
    | none => simp [declare, Array.getElem?_modify, hs]
    | some s => rw [getElem?_declare name v hs]; rfl
  · rw [getElem?_declare_of_ne name v hid]

theorem parent?_push (parent : Option Env) (henv : env.id < h.scopes.size) :
    (h.push parent).2.parent? env = h.parent? env := by
  have hs := Array.getElem?_eq_getElem henv
  rw [parent?, parent?, getElem?_push parent hs, hs]

theorem parent?_push_none : (h.push none).2.parent? (h.push none).1 = none := by
  simp [parent?, Heap.push]

theorem parent?_push_some (hp : p.id < h.scopes.size) :
    (h.push (some p)).2.parent? (h.push (some p)).1 = some p := by
  simp [parent?, Heap.push, hp]

theorem lookup_of_parent (hnot : ∀ v, ¬h.Binds e name v) (hp : h.parent? e = some p) :
    h.lookup e name = h.lookup p name := by
  obtain ⟨s, hs, hsp⟩ := Option.bind_eq_some_iff.mp hp
  have hnone : Entries.get? name s.bindings = none :=
    Option.eq_none_iff_forall_ne_some.mpr fun v hv => hnot v ⟨s, hs, hv⟩
  rw [lookup_eq, hs]
  simp only [hnone, hsp]

theorem lookup_of_root (hnot : ∀ v, ¬h.Binds e name v) (hp : h.parent? e = none) :
    h.lookup e name = none := by
  rw [lookup_eq]
  cases hs : h.scopes[e.id]? with
  | none => rfl
  | some s =>
      have hnone : Entries.get? name s.bindings = none :=
        Option.eq_none_iff_forall_ne_some.mpr fun v hv => hnot v ⟨s, hs, hv⟩
      have hsp : s.parent = none := by
        rw [parent?, hs] at hp
        exact hp
      simp only [hnone, hsp]

/-! ## The way outward -/

/-- The second scope is the first, or is somewhere around it. -/
def Outward (h : Heap) : Env → Env → Prop :=
  Relation.ReflTransGen fun e p => h.parent? e = some p

theorem Outward.id_le (ho : h.Outward e k) : k.id ≤ e.id := by
  induction ho with
  | refl => exact Nat.le_refl _
  | tail _ hp ih => exact Nat.le_trans (Nat.le_of_lt (parent?_lt hp)) ih

/-- Two heaps with the same nesting of scopes, where the scopes that are looked at bind the name to
the same value. -/
theorem lookup_congr {h' : Heap} {P : Env → Prop} (hparent : ∀ e, h'.parent? e = h.parent? e)
    (hbinds : ∀ e, P e → ∀ v, h'.Binds e name v ↔ h.Binds e name v)
    (hstep : ∀ e p, P e → (∀ v, ¬h.Binds e name v) → h.parent? e = some p → P p)
    (e : Env) (he : P e) : h'.lookup e name = h.lookup e name := by
  by_cases hbound : ∃ v, h.Binds e name v
  · obtain ⟨v, hv⟩ := hbound
    rw [hv.lookup, ((hbinds e he v).mpr hv).lookup]
  · have hnot := not_exists.mp hbound
    have hnot' : ∀ v, ¬h'.Binds e name v := fun v hv => hnot v ((hbinds e he v).mp hv)
    cases hp : h.parent? e with
    | none => rw [lookup_of_root hnot hp, lookup_of_root hnot' ((hparent e).trans hp)]
    | some p =>
        have := parent?_lt hp
        rw [lookup_of_parent hnot hp, lookup_of_parent hnot' ((hparent e).trans hp)]
        exact lookup_congr hparent hbinds hstep p (hstep e p he hnot hp)
termination_by e.id

theorem lookup_declare_of_ne (hk : k.id < h.scopes.size) (hne : other ≠ name) :
    (h.declare k name v).lookup e other = h.lookup e other := by
  refine lookup_congr (P := fun _ => True) (fun e => parent?_declare k name v) (fun e _ u => ?_)
    (fun _ _ _ _ _ => trivial) e trivial
  simp [binds_declare_iff hk, hne]

/-- The way outward from `e` does not come to `k`, or comes to another scope before that binds the
name. -/
def Hides (h : Heap) (name : String) (e k : Env) : Prop :=
  ¬h.Outward e k ∨ ∃ m v, h.Outward e m ∧ h.Binds m name v ∧ h.Outward m k ∧ m ≠ k

theorem Hides.ne (hh : h.Hides name e k) : e ≠ k := by
  rintro rfl
  rcases hh with hnot | ⟨m, v, hem, -, hme, hne⟩
  · exact hnot .refl
  · exact hne (congrArg Env.mk (Nat.le_antisymm hem.id_le hme.id_le))

theorem Hides.parent (hh : h.Hides name e k) (hnot : ∀ v, ¬h.Binds e name v)
    (hp : h.parent? e = some p) : h.Hides name p k := by
  rcases hh with hout | ⟨m, v, hem, hm, hmk, hne⟩
  · exact .inl fun hpk => hout (.head hp hpk)
  · rcases Relation.ReflTransGen.cases_head hem with rfl | ⟨q, hq, hqm⟩
    · exact absurd hm (hnot v)
    · cases hp.symm.trans hq
      exact .inr ⟨m, v, hqm, hm, hmk, hne⟩

theorem lookup_declare_of_hides (hk : k.id < h.scopes.size) (hh : h.Hides name e k) :
    (h.declare k name v).lookup e other = h.lookup e other := by
  by_cases hother : other = name
  · subst hother
    refine lookup_congr (P := fun e => h.Hides other e k) (fun e => parent?_declare k other v)
      (fun e he u => ?_) (fun e p he hnot hp => he.parent hnot hp) e hh
    simp [binds_declare_iff hk, he.ne]
  · exact lookup_declare_of_ne hk hother

end Heap

/-! ## Whole evaluations -/

theorem Heap.lt_of_lookup {h : Heap} {e : Env} {name : String} {v : Value}
    (hv : h.lookup e name = some v) : e.id < h.scopes.size := by
  refine Nat.lt_of_not_le fun hle => ?_
  rw [lookup_eq, Array.getElem?_eq_none hle] at hv
  cases hv

namespace World.Frame

variable {env e : Env} {names : List String} {w w' : World} {name : String}

/-- A scope that there was before has kept its place and all names but these. -/
theorem exists_scope (h : w.Frame env names w') {s : Scope}
    (hs : w.heap.scopes[e.id]? = some s) :
    ∃ s', w'.heap.scopes[e.id]? = some s' ∧ s.Rebound names s' := by
  by_cases he : e.id = env.id
  · rw [he] at hs ⊢
    exact h.inside s hs
  · exact ⟨s, h.outside _ s he hs, rfl, fun _ hbound => hbound, fun _ _ => rfl⟩

/-- Another name means what it meant before, wherever it is looked for. -/
theorem lookup_eq {e : Env} (h : w.Frame env names w') (hname : name ∉ names)
    (he : e.id < w.heap.scopes.size) : w'.heap.lookup e name = w.heap.lookup e name := by
  have hs := Array.getElem?_eq_getElem he
  obtain ⟨s', hs', hparent, -, hsame⟩ := h.exists_scope hs
  rw [Heap.lookup_eq, Heap.lookup_eq w.heap, hs, hs']
  dsimp only
  rw [hsame name hname, hparent]
  split
  · rfl
  · split
    · rfl
    · rename_i p hp
      have hlt := w.heap.parent_lt e.id he p hp
      exact h.lookup_eq hname (Nat.lt_trans hlt he)
termination_by e.id

end World.Frame

end Monkey
