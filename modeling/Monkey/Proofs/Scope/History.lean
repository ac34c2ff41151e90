import Mathlib.Logic.Relation
import Monkey.Proofs.Scope.Binding

/-!
# Histories of scopes

What is seen through a handle on a scope is settled by what has been done before with all handles:
which were made as clones of which, which scopes were made inside which, and in what order names
were declared. The heap, with its numbers for scopes, shows nothing else.
-/

namespace Monkey

/-! ## What is done with handles -/

/-- Handles have numbers, in the order in which they are made. -/
inductive Action where
  /-- Makes a handle on a new scope that is inside no other. -/
  | new
  /-- Makes a handle on a new scope inside the scope of a handle. -/
  | inside (i : Nat)
  /-- Makes another handle on the scope of a handle. -/
  | clone (i : Nat)
  /-- Binds a name in the scope of a handle. -/
  | declare (i : Nat) (name : String) (v : Value)

namespace Action

/-- The handle that it is done with. -/
def handle? : Action → Option Nat
  | new => none
  | inside i | clone i | declare i _ _ => some i

/-- It makes a handle. -/
def makes : Action → Bool
  | new | inside _ | clone _ => true
  | declare _ _ _ => false

end Action

/-- The handles made so far, and the scopes that they are on. -/
structure Host where
  handles : List Env
  heap : Heap

namespace Host

def start : Host :=
  ⟨[], .empty⟩

def step (m : Host) : Action → Option Host
  | .new => some ⟨m.handles ++ [(m.heap.push none).1], (m.heap.push none).2⟩
  | .inside i => do
      let e ← m.handles[i]?
      some ⟨m.handles ++ [(m.heap.push (some e)).1], (m.heap.push (some e)).2⟩
  | .clone i => do
      let e ← m.handles[i]?
      some ⟨m.handles ++ [e], m.heap⟩
  | .declare i name v => do
      let e ← m.handles[i]?
      some ⟨m.handles, m.heap.declare e name v⟩

def run (acts : List Action) : Option Host :=
  acts.foldlM step start

end Host

/-! ## What a history says -/

abbrev History := List Action

namespace History

/-- With `n` handles at the start, each handle is made before anything is done with it. -/
def LegalFrom : Nat → History → Prop
  | _, [] => True
  | n, a :: acts => (∀ i ∈ a.handle?, i < n) ∧ LegalFrom (if a.makes then n + 1 else n) acts

def Legal (acts : History) : Prop :=
  LegalFrom 0 acts

section

variable (acts : History)

/-- What made the handles, in the order of their numbers. -/
def made : List Action :=
  acts.filter Action.makes

/-- Handle `i` was made as a clone of handle `j`. -/
def Clones (i j : Nat) : Prop :=
  acts.made[i]? = some (.clone j)

/-- Clones of one another, directly or through other clones. -/
def Alias : Nat → Nat → Prop :=
  Relation.EqvGen acts.Clones

/-- The scope of handle `i` was made inside the scope of handle `j`. -/
def Inside (i j : Nat) : Prop :=
  ∃ k l, acts.Alias i k ∧ acts.made[k]? = some (.inside l) ∧ acts.Alias l j

/-- The last time that the name was declared through a handle of those in `P`, it was as `v`. -/
def LatestAmong (P : Nat → Prop) (name : String) (v : Value) : Prop :=
  ∃ before k after, acts = before ++ .declare k name v :: after ∧ P k ∧
    ∀ l u, Action.declare l name u ∈ after → ¬P l

/-- The last declaration of the name through a handle or an alias of it. -/
def Latest (i : Nat) : String → Value → Prop :=
  acts.LatestAmong (acts.Alias i)

/-- What a name stands for, seen from a handle. -/
inductive Sees (name : String) : Nat → Option Value → Prop
  | here {i : Nat} {v : Value} : acts.Latest i name v → Sees name i (some v)
  | outside {i j : Nat} {r : Option Value} : (∀ v, ¬acts.Latest i name v) → acts.Inside i j →
      Sees name j r → Sees name i r
  | nowhere {i : Nat} : (∀ v, ¬acts.Latest i name v) → (∀ j, ¬acts.Inside i j) → Sees name i none

/-- The scope of the second handle is that of the first, or is somewhere around it. -/
inductive Chain : Nat → Nat → Prop
  | here {i j : Nat} : acts.Alias i j → Chain i j
  | outside {i j k : Nat} : acts.Inside i j → Chain j k → Chain i k

/-- From handle `i`, the scope of handle `k` does not come up, or comes up only behind another that
has the name. -/
def Hides (name : String) (i k : Nat) : Prop :=
  ¬acts.Chain i k ∨
    ∃ j v, acts.Chain i j ∧ acts.Latest j name v ∧ acts.Chain j k ∧ ¬acts.Alias j k

end

variable {acts : History} {a b : Action} {P Q : Nat → Prop} {i j k : Nat} {name other : String}
  {v u : Value}

theorem made_concat (acts : History) (a : Action) :
    made (acts ++ [a]) = acts.made ++ if a.makes then [a] else [] := by
  cases ha : a.makes <;> simp [made, ha]

theorem made_concat_of_some (h : acts.made[i]? = some b) (a : Action) :
    (made (acts ++ [a]))[i]? = some b := by
  rw [made_concat, List.getElem?_append_left (List.getElem?_eq_some_iff.mp h).1, h]

theorem Alias.concat (h : acts.Alias i j) (a : Action) : Alias (acts ++ [a]) i j :=
  Relation.EqvGen.mono (fun _ _ hij => made_concat_of_some hij a) i j h

/-- The last action is a declaration that counts, or the one that counts came before. -/
theorem latestAmong_concat : LatestAmong (acts ++ [a]) P name v ↔
    (∃ k, a = .declare k name v ∧ P k) ∨
      (∀ k u, a = .declare k name u → ¬P k) ∧ acts.LatestAmong P name v := by
  constructor
  · rintro ⟨before, k, after, heq, hk, hafter⟩
    rcases List.eq_nil_or_concat after with rfl | ⟨after, b, rfl⟩
    · obtain ⟨-, hlast⟩ := List.append_inj' heq rfl
      exact .inl ⟨k, List.singleton_inj.mp hlast, hk⟩
    · rw [List.concat_eq_append] at heq hafter
      rw [← List.cons_append, ← List.append_assoc] at heq
      obtain ⟨rfl, hlast⟩ := List.append_inj' heq rfl
      obtain rfl := List.singleton_inj.mp hlast
      refine .inr ⟨fun l u hl => hafter l u ?_, before, k, after, rfl, hk, fun l u hl => ?_⟩
      · exact List.mem_append_right _ (List.mem_singleton.mpr hl.symm)
      · exact hafter l u (List.mem_append_left _ hl)
  · rintro (⟨k, rfl, hk⟩ | ⟨hlast, before, k, after, rfl, hk, hafter⟩)
    · exact ⟨acts, k, [], rfl, hk, fun l u hl => nomatch hl⟩
    · refine ⟨before, k, after ++ [a], by simp, hk, fun l u hl => ?_⟩
      rcases List.mem_append.mp hl with hl | hl
      · exact hafter l u hl
      · exact hlast l u (List.mem_singleton.mp hl).symm

theorem latestAmong_concat_of_makes (ha : a.makes = true) :
    LatestAmong (acts ++ [a]) P name v ↔ acts.LatestAmong P name v := by
  have hnot : ∀ k u, a ≠ .declare k name u := by
    rintro k u rfl
    cases ha
  rw [latestAmong_concat]
  constructor
  · rintro (⟨k, hk, -⟩ | ⟨-, h⟩)
    · exact absurd hk (hnot k v)
    · exact h
  · exact fun h => .inr ⟨fun k u hk => absurd hk (hnot k u), h⟩

theorem latestAmong_concat_declare : LatestAmong (acts ++ [.declare k name v]) P other u ↔
    P k ∧ other = name ∧ u = v ∨ ¬(P k ∧ other = name) ∧ acts.LatestAmong P other u := by
  rw [latestAmong_concat]
  simp only [Action.declare.injEq]
  refine or_congr ⟨?_, ?_⟩ (and_congr_left' ⟨?_, ?_⟩)
  · rintro ⟨l, ⟨rfl, rfl, rfl⟩, hk⟩
    exact ⟨hk, rfl, rfl⟩
  · rintro ⟨hk, rfl, rfl⟩
    exact ⟨k, ⟨rfl, rfl, rfl⟩, hk⟩
  · rintro hnot ⟨hk, rfl⟩
    exact hnot k v ⟨rfl, rfl, rfl⟩ hk
  · rintro hnot l w ⟨rfl, rfl, rfl⟩ hk
    exact hnot ⟨hk, rfl⟩

theorem LatestAmong.congr (hPQ : ∀ l u, Action.declare l name u ∈ acts → (P l ↔ Q l))
    (h : acts.LatestAmong P name v) : acts.LatestAmong Q name v := by
  obtain ⟨before, k, after, rfl, hk, hafter⟩ := h
  refine ⟨before, k, after, rfl, (hPQ k v ?_).mp hk, fun l u hl hQ => ?_⟩
  · exact List.mem_append_right _ List.mem_cons_self
  · have hmem : Action.declare l name u ∈ before ++ .declare k name v :: after :=
      List.mem_append_right _ (List.mem_cons_of_mem _ hl)
    exact hafter l u hl ((hPQ l u hmem).mpr hQ)

theorem latestAmong_congr (hPQ : ∀ l u, Action.declare l name u ∈ acts → (P l ↔ Q l)) :
    acts.LatestAmong P name v ↔ acts.LatestAmong Q name v :=
  ⟨.congr hPQ, .congr fun l u hl => (hPQ l u hl).symm⟩

end History

/-! ## What a host is like after a history -/

namespace Host

variable {acts : History} {a : Action} {m m' : Host} {e p : Env} {i j k : Nat} {name : String}
  {v : Value}

/-- How the scope of a handle stands to the other handles, by what made the handle. -/
def MadeBy (m : Host) (e : Env) : Action → Prop
  | .new => m.heap.parent? e = none
  | .inside j => ∃ p, m.handles[j]? = some p ∧ m.heap.parent? e = some p
  | .clone j => m.handles[j]? = some e
  | .declare _ _ _ => False

/-- The scopes nest, and bind names, as the history says. -/
structure Follows (m : Host) (acts : History) : Prop where
  length : acts.made.length = m.handles.length
  known (k : Nat) (name : String) (v : Value) : .declare k name v ∈ acts → k < m.handles.length
  bound : ∀ e ∈ m.handles, e.id < m.heap.scopes.size
  made (i : Nat) (e : Env) (a : Action) :
    m.handles[i]? = some e → acts.made[i]? = some a → m.MadeBy e a
  /-- One of the handles on a scope came with the scope. -/
  origin : ∀ e ∈ m.handles, ∃ (k : Nat) (a : Action),
    m.handles[k]? = some e ∧ acts.made[k]? = some a ∧ ∀ j, a ≠ .clone j
  same (i j : Nat) (e : Env) :
    m.handles[i]? = some e → m.handles[j]? = some e → acts.Alias i j
  binds : ∀ e ∈ m.handles, ∀ (name : String) (v : Value),
    m.heap.Binds e name v ↔ acts.LatestAmong (fun k => m.handles[k]? = some e) name v

theorem start_follows : start.Follows [] := by
  constructor <;> simp [start, History.made]

theorem getElem?_concat_eq_some {l : List Env} :
    (l ++ [e])[i]? = some p ↔ l[i]? = some p ∨ i = l.length ∧ e = p := by
  grind

theorem MadeBy.concat {heap : Heap} (h : m.MadeBy e a)
    (hparent : heap.parent? e = m.heap.parent? e) :
    MadeBy ⟨m.handles ++ [p], heap⟩ e a := by
  cases a with
  | new => exact hparent.trans h
  | inside j =>
      obtain ⟨q, hq, hp⟩ := h
      exact ⟨q, getElem?_concat_eq_some.mpr (.inl hq), hparent.trans hp⟩
  | clone j => exact getElem?_concat_eq_some.mpr (.inl h)
  | declare => exact h

/-- Declarations went through the old handles, and one more handle adds none. -/
theorem Follows.latestAmong_concat (h : m.Follows acts) (ha : a.makes = true) (e p : Env) :
    History.LatestAmong (acts ++ [a]) (fun k => (m.handles ++ [e])[k]? = some p) name v ↔
      acts.LatestAmong (fun k => m.handles[k]? = some p) name v := by
  rw [History.latestAmong_concat_of_makes ha]
  refine History.latestAmong_congr fun l u hl => ?_
  rw [List.getElem?_append_left (h.known l name u hl)]

/-- A new handle, on a scope that a handle is on or on one that no handle is on. -/
theorem Follows.concat {heap : Heap} (h : m.Follows acts) (ha : a.makes = true)
    (hold : ∀ p ∈ m.handles, p.id < heap.scopes.size ∧ heap.parent? p = m.heap.parent? p ∧
      ∀ name v, heap.Binds p name v ↔ m.heap.Binds p name v)
    (hbound : e.id < heap.scopes.size) (hmade : MadeBy ⟨m.handles ++ [e], heap⟩ e a)
    (hnew : (∃ j, a = .clone j ∧ m.handles[j]? = some e) ∨
      (∀ j, a ≠ .clone j) ∧ e ∉ m.handles ∧ ∀ name v, ¬heap.Binds e name v) :
    Follows ⟨m.handles ++ [e], heap⟩ (acts ++ [a]) := by
  have hlast : (History.made (acts ++ [a]))[m.handles.length]? = some a := by
    rw [History.made_concat, if_pos ha, ← h.length, List.getElem?_concat_length]
  constructor
  case length => simp [History.made_concat, ha, h.length]
  case known =>
    intro k name v hk
    rcases List.mem_append.mp hk with hk | hk
    · exact Nat.lt_of_lt_of_le (h.known k name v hk) (by simp)
    · cases List.mem_singleton.mp hk
      cases ha
  case bound =>
    intro p hp
    rcases List.mem_append.mp hp with hp | hp
    · exact (hold p hp).1
    · cases List.mem_singleton.mp hp
      exact hbound
  case made =>
    intro i p b hi hb
    rcases getElem?_concat_eq_some.mp hi with hi | ⟨rfl, rfl⟩
    · have hlt : i < acts.made.length := h.length ▸ (List.getElem?_eq_some_iff.mp hi).1
      rw [History.made_concat, List.getElem?_append_left hlt] at hb
      exact (h.made i p b hi hb).concat (hold p (List.mem_of_getElem? hi)).2.1
    · cases hlast.symm.trans hb
      exact hmade
  case origin =>
    have hfrom : ∀ p ∈ m.handles, ∃ (k : Nat) (b : Action), (m.handles ++ [e])[k]? = some p ∧
        (History.made (acts ++ [a]))[k]? = some b ∧ ∀ j, b ≠ .clone j := by
      intro p hp
      obtain ⟨k, b, hk, hb, hne⟩ := h.origin p hp
      exact ⟨k, b, getElem?_concat_eq_some.mpr (.inl hk), History.made_concat_of_some hb a, hne⟩
    intro p hp
    rcases List.mem_append.mp hp with hp | hp
    · exact hfrom p hp
    · cases List.mem_singleton.mp hp
      rcases hnew with ⟨j, -, hj⟩ | ⟨hopen, -, -⟩
      · exact hfrom e (List.mem_of_getElem? hj)
      · exact ⟨_, a, getElem?_concat_eq_some.mpr (.inr ⟨rfl, rfl⟩), hlast, hopen⟩
  case same =>
    -- An old handle on the scope of the new one: the new one is then a clone.
    have hclone : ∀ i, m.handles[i]? = some e →
        History.Alias (acts ++ [a]) i m.handles.length := by
      intro i hi
      rcases hnew with ⟨j, rfl, hj⟩ | ⟨-, hnot, -⟩
      · exact .trans _ _ _ ((h.same i j e hi hj).concat _) (.symm _ _ (.rel _ _ hlast))
      · exact absurd (List.mem_of_getElem? hi) hnot
    intro i j p hi hj
    rcases getElem?_concat_eq_some.mp hi with hi | ⟨rfl, rfl⟩ <;>
      rcases getElem?_concat_eq_some.mp hj with hj | ⟨rfl, heq⟩
    · exact (h.same i j p hi hj).concat a
    · exact hclone i (heq ▸ hi)
    · exact .symm _ _ (hclone j hj)
    · exact .refl _
  case binds =>
    intro p hp name v
    rw [h.latestAmong_concat ha]
    by_cases hmem : p ∈ m.handles
    · rw [(hold p hmem).2.2, h.binds p hmem]
    · obtain rfl : p = e := List.mem_singleton.mp ((List.mem_append.mp hp).resolve_left hmem)
      rcases hnew with ⟨j, -, hj⟩ | ⟨-, -, hfresh⟩
      · exact absurd (List.mem_of_getElem? hj) hmem
      · refine iff_of_false (hfresh name v) ?_
        rintro ⟨before, k, after, -, hk, -⟩
        exact hmem (List.mem_of_getElem? hk)

/-- A handle on a new scope. -/
theorem Follows.push (h : m.Follows acts) {parent : Option Env} (ha : a.makes = true)
    (hopen : ∀ j, a ≠ .clone j)
    (hmade : MadeBy ⟨m.handles ++ [(m.heap.push parent).1], (m.heap.push parent).2⟩
      (m.heap.push parent).1 a) :
    Follows ⟨m.handles ++ [(m.heap.push parent).1], (m.heap.push parent).2⟩ (acts ++ [a]) := by
  have hsize : (m.heap.push parent).2.scopes.size = m.heap.scopes.size + 1 := by
    simp [Heap.push]
  refine h.concat ha (fun p hp => ⟨?_, ?_, fun name v => ?_⟩) ?_ hmade
    (.inr ⟨hopen, fun hmem => ?_, fun name v => Heap.not_binds_push parent⟩)
  · exact hsize ▸ Nat.lt_succ_of_lt (h.bound p hp)
  · exact Heap.parent?_push parent (h.bound p hp)
  · exact Heap.binds_push_iff parent (h.bound p hp)
  · exact hsize ▸ Nat.lt_succ_self _
  · exact Nat.lt_irrefl _ (h.bound _ hmem)

/-- A name bound through a handle. -/
theorem Follows.declare (h : m.Follows acts) (hk : m.handles[k]? = some e) :
    Follows ⟨m.handles, m.heap.declare e name v⟩ (acts ++ [.declare k name v]) := by
  have hmade : History.made (acts ++ [.declare k name v]) = acts.made := by
    simp [History.made_concat, Action.makes]
  constructor
  case length => rw [hmade, h.length]
  case known =>
    intro l other u hl
    rcases List.mem_append.mp hl with hl | hl
    · exact h.known l other u hl
    · cases List.mem_singleton.mp hl
      exact (List.getElem?_eq_some_iff.mp hk).1
  case bound =>
    intro p hp
    simpa [Heap.declare] using h.bound p hp
  case made =>
    intro i p b hi hb
    rw [hmade] at hb
    have hby := h.made i p b hi hb
    cases b with
    | new => exact (Heap.parent?_declare e name v).trans hby
    | inside j =>
        obtain ⟨q, hq, hpq⟩ := hby
        exact ⟨q, hq, (Heap.parent?_declare e name v).trans hpq⟩
    | clone j => exact hby
    | declare => exact hby
  case origin =>
    rw [hmade]
    exact h.origin
  case same => exact fun i j p hi hj => (h.same i j p hi hj).concat _
  case binds =>
    intro p hp other u
    have hkp : m.handles[k]? = some p ↔ p = e := by rw [hk, Option.some.injEq, eq_comm]
    rw [Heap.binds_declare_iff (h.bound e (List.mem_of_getElem? hk)),
      History.latestAmong_concat_declare, h.binds p hp other u, hkp]

theorem step_follows (h : m.Follows acts) (hs : m.step a = some m') : m'.Follows (acts ++ [a]) := by
  cases a with
  | new =>
      cases hs
      exact h.push rfl (fun j => nofun) Heap.parent?_push_none
  | inside j =>
      obtain ⟨e, hj, hs⟩ := Option.bind_eq_some_iff.mp hs
      cases hs
      refine h.push rfl (fun j => nofun) ⟨e, getElem?_concat_eq_some.mpr (.inl hj), ?_⟩
      exact Heap.parent?_push_some (h.bound e (List.mem_of_getElem? hj))
  | clone j =>
      obtain ⟨e, hj, hs⟩ := Option.bind_eq_some_iff.mp hs
      cases hs
      exact h.concat rfl (fun p hp => ⟨h.bound p hp, rfl, fun _ _ => Iff.rfl⟩)
        (h.bound e (List.mem_of_getElem? hj)) (getElem?_concat_eq_some.mpr (.inl hj))
        (.inl ⟨j, rfl, hj⟩)
  | declare k name v =>
      obtain ⟨e, hk, hs⟩ := Option.bind_eq_some_iff.mp hs
      cases hs
      exact h.declare hk

/-- Each action is on a handle that there is, so it can be done. -/
theorem exists_step (h : ∀ i ∈ a.handle?, i < m.handles.length) : ∃ m', m.step a = some m' := by
  cases a with
  | new => exact ⟨_, rfl⟩
  | inside i | clone i | declare i name v =>
      rw [step, List.getElem?_eq_getElem (h i rfl)]
      exact ⟨_, rfl⟩

theorem foldlM_step_follows {rest : History} (h : m.Follows acts)
    (hlegal : rest.LegalFrom m.handles.length) :
    ∃ m', rest.foldlM step m = some m' ∧ m'.Follows (acts ++ rest) := by
  induction rest generalizing acts m with
  | nil => exact ⟨m, rfl, by simpa using h⟩
  | cons a rest ih =>
      obtain ⟨ha, hrest⟩ := hlegal
      obtain ⟨m₁, hs⟩ := exists_step ha
      have h₁ := step_follows h hs
      have hlen : m₁.handles.length =
          if a.makes then m.handles.length + 1 else m.handles.length := by
        rw [← h₁.length, ← h.length, History.made_concat]
        cases a.makes <;> simp
      obtain ⟨m', hrun, hm'⟩ := ih h₁ (hlen ▸ hrest)
      refine ⟨m', ?_, by simpa using hm'⟩
      rw [List.foldlM_cons, hs]
      exact hrun

theorem run_follows (hlegal : History.Legal acts) : ∃ m, run acts = some m ∧ m.Follows acts :=
  foldlM_step_follows start_follows hlegal

/-! ## What is seen through a handle -/

theorem Follows.alias_iff (h : m.Follows acts) (hi : m.handles[i]? = some e) :
    acts.Alias i j ↔ m.handles[j]? = some e := by
  have hclones : ∀ i j, acts.Clones i j → m.handles[i]? = m.handles[j]? := by
    intro i j hij
    have hlt : i < m.handles.length := h.length ▸ (List.getElem?_eq_some_iff.mp hij).1
    have hget := List.getElem?_eq_getElem hlt
    exact hget.trans (h.made i _ _ hget hij).symm
  constructor
  · intro hij
    suffices heq : m.handles[i]? = m.handles[j]? from heq ▸ hi
    clear hi
    induction hij with
    | rel i j hij => exact hclones i j hij
    | refl i => rfl
    | symm i j _ ih => exact ih.symm
    | trans i j k _ _ ihij ihjk => exact ihij.trans ihjk
  · exact h.same i j e hi

theorem Follows.latest_iff (h : m.Follows acts) (hi : m.handles[i]? = some e) :
    acts.Latest i name v ↔ m.heap.Binds e name v := by
  rw [h.binds e (List.mem_of_getElem? hi), History.Latest]
  exact History.latestAmong_congr fun l u _ => h.alias_iff hi

theorem Follows.of_inside (h : m.Follows acts) (hi : m.handles[i]? = some e)
    (hij : acts.Inside i j) : ∃ p, m.handles[j]? = some p ∧ m.heap.parent? e = some p := by
  obtain ⟨k, l, hik, hk, hlj⟩ := hij
  obtain ⟨p, hl, hp⟩ := h.made k e _ ((h.alias_iff hi).mp hik) hk
  exact ⟨p, (h.alias_iff hl).mp hlj, hp⟩

theorem Follows.exists_inside (h : m.Follows acts) (hi : m.handles[i]? = some e)
    (hp : m.heap.parent? e = some p) : ∃ j, acts.Inside i j ∧ m.handles[j]? = some p := by
  obtain ⟨k, a, hk, ha, hopen⟩ := h.origin e (List.mem_of_getElem? hi)
  have hby := h.made k e a hk ha
  cases a with
  | new => cases hp.symm.trans hby
  | inside j =>
      obtain ⟨q, hj, hq⟩ := hby
      cases hp.symm.trans hq
      exact ⟨j, ⟨k, j, h.same i k e hi hk, ha, .refl j⟩, hj⟩
  | clone j => exact absurd rfl (hopen j)
  | declare => cases hby

theorem Follows.not_latest_iff (h : m.Follows acts) (hi : m.handles[i]? = some e) :
    (∀ v, ¬acts.Latest i name v) ↔ ∀ v, ¬m.heap.Binds e name v :=
  forall_congr' fun _ => not_congr (h.latest_iff hi)

theorem Follows.lookup_of_sees {r : Option Value} (h : m.Follows acts)
    (hsees : acts.Sees name i r) (hi : m.handles[i]? = some e) : m.heap.lookup e name = r := by
  induction hsees generalizing e with
  | here hv => exact ((h.latest_iff hi).mp hv).lookup
  | outside hnot hij _ ih =>
      obtain ⟨p, hj, hp⟩ := h.of_inside hi hij
      rw [Heap.lookup_of_parent ((h.not_latest_iff hi).mp hnot) hp]
      exact ih hj
  | nowhere hnot hno =>
      refine Heap.lookup_of_root ((h.not_latest_iff hi).mp hnot) ?_
      refine Option.eq_none_iff_forall_ne_some.mpr fun p hp => ?_
      obtain ⟨j, hij, -⟩ := h.exists_inside hi hp
      exact hno j hij

theorem Follows.sees_lookup (h : m.Follows acts) (name : String) (i : Nat) (e : Env)
    (hi : m.handles[i]? = some e) : acts.Sees name i (m.heap.lookup e name) := by
  by_cases hbound : ∃ v, acts.Latest i name v
  · obtain ⟨v, hv⟩ := hbound
    rw [((h.latest_iff hi).mp hv).lookup]
    exact .here hv
  · have hnot := not_exists.mp hbound
    have hbare := (h.not_latest_iff hi).mp hnot
    cases hp : m.heap.parent? e with
    | none =>
        rw [Heap.lookup_of_root hbare hp]
        refine .nowhere hnot fun j hij => ?_
        obtain ⟨p, -, hsome⟩ := h.of_inside hi hij
        cases hp.symm.trans hsome
    | some p =>
        have := Heap.parent?_lt hp
        obtain ⟨j, hij, hj⟩ := h.exists_inside hi hp
        rw [Heap.lookup_of_parent hbare hp]
        exact .outside hnot hij (h.sees_lookup name j p hj)
termination_by e.id

theorem Follows.lookup_eq_iff (h : m.Follows acts) (hi : m.handles[i]? = some e)
    (r : Option Value) : m.heap.lookup e name = r ↔ acts.Sees name i r := by
  constructor
  · rintro rfl
    exact h.sees_lookup name i e hi
  · exact fun hsees => h.lookup_of_sees hsees hi

theorem Follows.containsLocal_iff (h : m.Follows acts) (hi : m.handles[i]? = some e) :
    m.heap.containsLocal e name = true ↔ ∃ v, acts.Latest i name v := by
  rw [Heap.containsLocal_iff]
  exact exists_congr fun v => (h.latest_iff hi).symm

/-! ## What a declaration leaves alone -/

theorem Follows.of_chain (h : m.Follows acts) (hi : m.handles[i]? = some e)
    (hik : acts.Chain i k) : ∃ p, m.handles[k]? = some p ∧ m.heap.Outward e p := by
  induction hik generalizing e with
  | here hik => exact ⟨e, (h.alias_iff hi).mp hik, .refl⟩
  | outside hij _ ih =>
      obtain ⟨q, hj, hq⟩ := h.of_inside hi hij
      obtain ⟨p, hk, hqp⟩ := ih hj
      exact ⟨p, hk, .head hq hqp⟩

theorem Follows.chain_of_outward (h : m.Follows acts) (hi : m.handles[i]? = some e)
    (hk : m.handles[k]? = some p) (ho : m.heap.Outward e p) : acts.Chain i k := by
  induction ho using Relation.ReflTransGen.head_induction_on generalizing i with
  | refl => exact .here (h.same i k p hi hk)
  | head hq _ ih =>
      obtain ⟨j, hij, hj⟩ := h.exists_inside hi hq
      exact .outside hij (ih hj)

theorem Follows.hides (h : m.Follows acts) (hi : m.handles[i]? = some e)
    (hk : m.handles[k]? = some p) (hh : acts.Hides name i k) : m.heap.Hides name e p := by
  rcases hh with hnot | ⟨j, v, hij, hv, hjk, hne⟩
  · exact .inl fun ho => hnot (h.chain_of_outward hi hk ho)
  · obtain ⟨q, hj, heq⟩ := h.of_chain hi hij
    obtain ⟨p', hk', hqp⟩ := h.of_chain hj hjk
    cases hk.symm.trans hk'
    refine .inr ⟨q, v, heq, (h.latest_iff hj).mp hv, hqp, ?_⟩
    rintro rfl
    exact hne (h.same j k q hj hk)

/-- Handles show what the history says, and nothing else. After a declaration through handle `k`
that is hidden from handle `i`, all names are seen from there as before. -/
theorem run_shows (hlegal : History.Legal acts) : ∃ m, run acts = some m ∧
    m.handles.length = acts.made.length ∧
    (∀ i e, m.handles[i]? = some e →
      (∀ name r, m.heap.lookup e name = r ↔ acts.Sees name i r) ∧
      (∀ name, m.heap.containsLocal e name = true ↔ ∃ v, acts.Latest i name v) ∧
      ∀ j p, m.handles[j]? = some p → (e = p ↔ acts.Alias i j)) ∧
    ∀ k < m.handles.length, ∀ name v, ∃ m', m.step (.declare k name v) = some m' ∧
      m'.handles = m.handles ∧
      ∀ i e, m.handles[i]? = some e → acts.Hides name i k →
        ∀ other, m'.heap.lookup e other = m.heap.lookup e other := by
  obtain ⟨m, hrun, h⟩ := run_follows hlegal
  refine ⟨m, hrun, h.length.symm, fun i e hi => ⟨fun name r => h.lookup_eq_iff hi r,
    fun name => h.containsLocal_iff hi, fun j p hj => ?_⟩, fun k hk name v => ?_⟩
  · rw [h.alias_iff hi, hj, Option.some.injEq, eq_comm]
  · have hget := List.getElem?_eq_getElem hk
    refine ⟨⟨m.handles, m.heap.declare m.handles[k] name v⟩, ?_, rfl, fun i e hi hh other => ?_⟩
    · rw [step, hget]
      rfl
    · exact Heap.lookup_declare_of_hides (h.bound _ (List.getElem_mem hk)) (h.hides hi hget hh)

/-- A name is bound in two scopes, one inside the other, and another through a second handle on the
outer one. -/
def twoScopes : History :=
  [.new, .declare 0 "a" (.int 1), .inside 0, .declare 1 "a" (.int 2), .clone 0,
    .declare 2 "b" (.bool true)]

theorem run_shows_twoScopes : twoScopes.Legal ∧ ∃ m outer inner, run twoScopes = some m ∧
    m.handles = [outer, inner, outer] ∧ m.heap.lookup outer "b" = some (.bool true) ∧
    ∃ m', m.step (.declare 0 "a" .null) = some m' ∧ m'.heap.lookup inner "a" = some (.int 2) := by
  have hlegal : twoScopes.Legal := by
    simp [History.Legal, History.LegalFrom, twoScopes, Action.handle?, Action.makes]
  obtain ⟨m, hrun, -, hshows, hframe⟩ := run_shows hlegal
  have hhandles : m.handles = [⟨0⟩, ⟨1⟩, ⟨0⟩] := by
    have hmap : (run twoScopes).map handles = some [⟨0⟩, ⟨1⟩, ⟨0⟩] := rfl
    rw [hrun] at hmap
    exact Option.some.inj hmap
  have houter : m.handles[0]? = some ⟨0⟩ := by rw [hhandles]; rfl
  have hinner : m.handles[1]? = some ⟨1⟩ := by rw [hhandles]; rfl
  have hlatest : twoScopes.Latest 1 "a" (.int 2) := by
    refine ⟨[.new, .declare 0 "a" (.int 1), .inside 0], 1, [.clone 0, .declare 2 "b" (.bool true)],
      rfl, .refl 1, fun l u hl => ?_⟩
    simp at hl
  obtain ⟨m', hstep, -, hsame⟩ := hframe 0 (by simp [hhandles]) "a" .null
  refine ⟨hlegal, m, ⟨0⟩, ⟨1⟩, hrun, hhandles, ?_, m', hstep, ?_⟩
  · refine ((hshows 0 _ houter).1 "b" _).mpr (.here ?_)
    exact ⟨[.new, .declare 0 "a" (.int 1), .inside 0, .declare 1 "a" (.int 2), .clone 0], 2, [],
      rfl, .symm _ _ (.rel _ _ rfl), fun _ _ hl => nomatch hl⟩
  · have hne : ¬twoScopes.Alias 1 0 := by
      rw [← (hshows 1 _ hinner).2.2 0 _ houter]
      decide
    have hinside : twoScopes.Inside 1 0 := ⟨1, 0, .refl 1, rfl, .refl 0⟩
    rw [hsame 1 _ hinner (.inr ⟨1, .int 2, .here (.refl 1), hlatest,
      .outside hinside (.here (.refl 0)), hne⟩) "a"]
    exact ((hshows 1 _ hinner).1 "a" _).mpr (.here hlatest)

end Host

end Monkey
