/-!
# Finite maps as sorted lists

A finite map is the list of its entries in increasing order of the keys, each key once. Two such
lists with the same look-ups are the same list, so the order in which entries were put in leaves no
trace.
-/

namespace Monkey.Entries

variable {κ ν : Type}

/-- The map with `v` at `k`, in the place of what was there. -/
def put [Ord κ] (k : κ) (v : ν) : List (κ × ν) → List (κ × ν)
  | [] => [(k, v)]
  | (l, w) :: rest =>
    match compare k l with
    | .lt => (k, v) :: (l, w) :: rest
    | .eq => (k, v) :: rest
    | .gt => (l, w) :: put k v rest

/-- What the map has at `k`. -/
def get? [DecidableEq κ] (k : κ) : List (κ × ν) → Option ν
  | [] => none
  | (l, w) :: rest => if k = l then some w else get? k rest

def contains [DecidableEq κ] (k : κ) (m : List (κ × ν)) : Bool :=
  (get? k m).isSome

def keys (m : List (κ × ν)) : List κ :=
  m.map (·.1)

/-- Strictly increasing keys. -/
def Sorted [Ord κ] (m : List (κ × ν)) : Prop :=
  (keys m).Pairwise fun k l => compare k l = .lt

/-! ## Look-up -/

theorem get?_put [Ord κ] [DecidableEq κ] [Std.LawfulEqOrd κ] (k l : κ) (v : ν) (m : List (κ × ν)) :
    get? l (put k v m) = if l = k then some v else get? l m := by
  induction m with
  | nil => rfl
  | cons e m ih =>
    rcases e with ⟨j, w⟩
    rw [put]
    split
    · rfl
    · rename_i h
      cases Std.LawfulEqCmp.eq_of_compare h
      simp only [get?]
      split <;> rfl
    · rename_i h
      have hkj : k ≠ j := by rintro rfl; simp at h
      simp only [get?, ih]
      by_cases hj : l = j
      · subst hj; simp [Ne.symm hkj]
      · simp [hj]

/-! ## Order -/

theorem mem_keys_put [Ord κ] {k l : κ} {v : ν} {m : List (κ × ν)} (h : l ∈ keys (put k v m)) :
    l = k ∨ l ∈ keys m := by
  induction m with
  | nil => simpa [put, keys] using h
  | cons e m ih =>
    rcases e with ⟨j, w⟩
    rw [put] at h
    split at h
    · simpa [keys] using h
    · rcases List.mem_cons.mp h with h | h
      · exact Or.inl h
      · exact Or.inr (List.mem_cons_of_mem _ h)
    · rcases List.mem_cons.mp h with h | h
      · exact Or.inr (h ▸ List.mem_cons_self)
      · exact (ih h).imp_right (List.mem_cons_of_mem _)

theorem sorted_put [Ord κ] [Std.LawfulEqOrd κ] [Std.TransOrd κ] (k : κ) (v : ν) {m : List (κ × ν)}
    (h : Sorted m) : Sorted (put k v m) := by
  induction m with
  | nil => simp [put, Sorted, keys]
  | cons e m ih =>
    rcases e with ⟨j, w⟩
    obtain ⟨hj, hm⟩ := List.pairwise_cons.mp h
    rw [put]
    split
    · rename_i hk
      refine List.pairwise_cons.mpr ⟨?_, h⟩
      intro l hl
      rcases List.mem_cons.mp hl with rfl | hl
      · exact hk
      · exact Std.TransCmp.lt_trans hk (hj l hl)
    · rename_i hk
      cases Std.LawfulEqCmp.eq_of_compare hk
      exact List.pairwise_cons.mpr ⟨hj, hm⟩
    · rename_i hk
      refine List.pairwise_cons.mpr ⟨?_, ih hm⟩
      intro l hl
      rcases mem_keys_put hl with rfl | hl
      · exact Std.OrientedCmp.gt_iff_lt.mp hk
      · exact hj l hl

end Monkey.Entries
