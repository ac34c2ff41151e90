import Mathlib.Data.List.Forall2
import Mathlib.Data.Option.Defs
import Monkey.Entries
import Monkey.Proofs.Text.Bytes
import Monkey.Value.Same
import Monkey.Value.Text

/-!
# Entries of hashes

The entries of a hash are a finite map with increasing keys: two of them with related look-ups are
related entry by entry, and many pairs put in leave the last value of each key. For the keys of
the language the order is written out, and so is the equality of two maps.
-/

namespace Monkey

namespace Entries

variable {κ ν μ : Type}

/-! ## Look-up in a sorted map -/

section Sorted

variable [Ord κ] [DecidableEq κ] [Std.LawfulEqOrd κ]

theorem get?_eq_none_of_forall_lt {k : κ} {m : List (κ × ν)}
    (h : ∀ l ∈ keys m, compare k l = .lt) : get? k m = none := by
  induction m with
  | nil => rfl
  | cons e m ih =>
      obtain ⟨hl, hm⟩ := List.forall_mem_cons.mp h
      have hne : k ≠ e.1 := by
        rintro rfl
        simp at hl
      rw [get?, if_neg hne]
      exact ih hm

theorem Sorted.get?_eq_some_iff {m : List (κ × ν)} (h : Sorted m) {k : κ} {v : ν} :
    get? k m = some v ↔ (k, v) ∈ m := by
  induction m with
  | nil => simp [get?]
  | cons e m ih =>
      obtain ⟨l, u⟩ := e
      obtain ⟨hl, hm⟩ := List.pairwise_cons.mp h
      rw [get?, List.mem_cons, Prod.mk.injEq]
      split
      · rename_i hk
        subst hk
        have hout : (k, v) ∉ m := fun hmem => by
          simpa using hl k (List.mem_map.mpr ⟨_, hmem, rfl⟩)
        simp [hout, eq_comm]
      · rename_i hk
        simp [hk, ih hm]

/-- Two sorted maps with related look-ups have the same keys, with related values. -/
theorem forall₂_of_get? [Std.TransOrd κ] {R : ν → μ → Prop} {m : List (κ × ν)}
    {m' : List (κ × μ)} (hm : Sorted m) (hm' : Sorted m')
    (h : ∀ k, Option.Rel R (get? k m) (get? k m')) :
    List.Forall₂ (fun e e' => e.1 = e'.1 ∧ R e.2 e'.2) m m' := by
  induction m generalizing m' with
  | nil =>
      cases m' with
      | nil => exact .nil
      | cons e' _ =>
          have := h e'.1
          rw [get?, get?, if_pos rfl] at this
          cases this
  | cons e m ih =>
      obtain ⟨k, v⟩ := e
      obtain ⟨hk, hm⟩ := List.pairwise_cons.mp hm
      cases m' with
      | nil =>
          have := h k
          rw [get?, get?, if_pos rfl] at this
          cases this
      | cons e' m' =>
          obtain ⟨l, u⟩ := e'
          obtain ⟨hl, hm'₁⟩ := List.pairwise_cons.mp hm'
          -- the lesser one of two first keys would be in one of the maps only
          cases hkl : compare k l with
          | lt =>
              have hnone : get? k ((l, u) :: m') = none :=
                get?_eq_none_of_forall_lt <| List.forall_mem_cons.mpr
                  ⟨hkl, fun j hj => Std.TransCmp.lt_trans hkl (hl j hj)⟩
              have := h k
              rw [hnone, get?, if_pos rfl] at this
              cases this
          | gt =>
              have hlk : compare l k = .lt := Std.OrientedCmp.gt_iff_lt.mp hkl
              have hnone : get? l ((k, v) :: m) = none :=
                get?_eq_none_of_forall_lt <| List.forall_mem_cons.mpr
                  ⟨hlk, fun j hj => Std.TransCmp.lt_trans hlk (hk j hj)⟩
              have := h l
              rw [hnone, get?, if_pos rfl] at this
              cases this
          | eq =>
              cases Std.LawfulEqCmp.eq_of_compare hkl
              have hvu : R v u := by
                have := h k
                rw [get?, get?, if_pos rfl, if_pos rfl] at this
                cases this
                assumption
              refine .cons ⟨rfl, hvu⟩ (ih hm hm'₁ fun j => ?_)
              by_cases hj : j = k
              · subst hj
                rw [get?_eq_none_of_forall_lt hk, get?_eq_none_of_forall_lt hl]
                exact .none
              · have := h j
                rwa [get?, get?, if_neg hj, if_neg hj] at this

end Sorted

theorem rel_get?_of_forall₂ [DecidableEq κ] {R : ν → μ → Prop} {m : List (κ × ν)}
    {m' : List (κ × μ)} (h : List.Forall₂ (fun e e' => e.1 = e'.1 ∧ R e.2 e'.2) m m') (k : κ) :
    Option.Rel R (get? k m) (get? k m') := by
  induction h with
  | nil => exact .none
  | cons he _ ih =>
      rw [get?, get?, ← he.1]
      split
      · exact .some he.2
      · exact ih

/-! ## Many entries put in -/

/-- The entries put into `m`, the first one first. -/
def putAll [Ord κ] (es : List (κ × ν)) (m : List (κ × ν)) : List (κ × ν) :=
  es.foldl (fun m e => put e.1 e.2 m) m

/-- What the last entry of a key holds. -/
def last? [DecidableEq κ] (k : κ) (es : List (κ × ν)) : Option ν :=
  (es.reverse.find? fun e => k = e.1).map (·.2)

theorem get?_putAll [Ord κ] [DecidableEq κ] [Std.LawfulEqOrd κ] (k : κ)
    (es m : List (κ × ν)) : get? k (putAll es m) = (last? k es).or (get? k m) := by
  induction es generalizing m with
  | nil => rfl
  | cons e es ih =>
      rw [putAll, List.foldl_cons, ← putAll, ih, get?_put, last?, last?, List.reverse_cons,
        List.find?_append]
      cases es.reverse.find? fun e => k = e.1 with
      | some _ => rfl
      | none => by_cases hk : k = e.1 <;> simp [hk]

theorem sorted_putAll [Ord κ] [Std.LawfulEqOrd κ] [Std.TransOrd κ] (es : List (κ × ν))
    {m : List (κ × ν)} (h : Sorted m) : Sorted (putAll es m) := by
  induction es generalizing m with
  | nil => exact h
  | cons e es ih => exact ih (sorted_put e.1 e.2 h)

end Entries

/-! ## The order of keys -/

namespace HashKey

/-- Integers by size, then false, then true, then strings by their bytes. -/
inductive Before : HashKey → HashKey → Prop
  | ints {a b : Int64} (h : a.toInt < b.toInt) : Before (int a) (int b)
  | int_bool {a : Int64} {b : Bool} : Before (int a) (bool b)
  | int_str {a : Int64} {b : String} : Before (int a) (str b)
  | bools : Before (bool false) (bool true)
  | bool_str {a : Bool} {b : String} : Before (bool a) (str b)
  | strs {a b : String} (h : Text.bytes a < Text.bytes b) : Before (str a) (str b)

theorem before_of_compare {a b : HashKey} (h : compare a b = .lt) : a.Before b := by
  rw [compare_eq_order] at h
  cases a with
  | int a =>
      cases b with
      | int b => exact .ints (Int64.lt_iff_toInt_lt.mp (compareOfLessAndEq_eq_lt.mp h))
      | bool b => exact .int_bool
      | str b => exact .int_str
  | bool a =>
      cases b with
      | int b => cases h
      | bool b =>
          cases a <;> cases b <;> first | exact .bools | cases h
      | str b => exact .bool_str
  | str a =>
      cases b with
      | int b => cases h
      | bool b => cases h
      | str b => exact .strs (Text.lt_iff_bytes.mp (compareOfLessAndEq_eq_lt.mp h))

end HashKey

theorem Entries.Sorted.before {ν : Type} {es : List (HashKey × ν)} (h : Sorted es) :
    (keys es).Pairwise HashKey.Before :=
  h.imp HashKey.before_of_compare

/-! ## Equality and text -/

namespace Value

theorem sameEntries_iff {es es' : List (HashKey × Value)} :
    sameEntries es es' = true ↔
      List.Forall₂ (fun e e' => e.1 = e'.1 ∧ e.2.same e'.2 = true) es es' := by
  induction es generalizing es' with
  | nil => cases es' <;> simp [sameEntries]
  | cons e es ih =>
      cases es' with
      | nil => simp [sameEntries]
      | cons e' es' =>
          obtain ⟨k, v⟩ := e
          obtain ⟨l, u⟩ := e'
          simp [sameEntries, ih, and_assoc]

theorem entryTexts_eq_map (es : List (HashKey × Value)) :
    entryTexts es = es.map fun e => e.1.text ++ ": " ++ e.2.text := by
  induction es with
  | nil => rfl
  | cons e es ih => rw [entryTexts, ih, List.map_cons]

end Value

end Monkey
