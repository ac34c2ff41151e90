/-!
# Spans

A span is a stretch of a source text, counted in bytes of its UTF-8 form: the offset where it starts
and the number of bytes that it covers. Both are words of 32 bits, so sums are taken modulo the size
of a word; in a source that is smaller than that, they are the sums of the numbers.
-/

namespace Monkey

structure Span where
  start : UInt32
  length : UInt32
deriving DecidableEq

namespace Span

/-- The number of bytes from one offset to a later one; zero if it is not later. -/
def gap (i j : UInt32) : UInt32 :=
  if i ≤ j then j - i else 0

/-- The offset just after the last byte. -/
def stop (s : Span) : UInt32 :=
  s.start + s.length

/-- The span from one offset to another; empty if they are in the wrong order. -/
def between (start stop : UInt32) : Span :=
  ⟨start, gap start stop⟩

/-- The span of the bytes of a text from number `start` up to, not including, number `stop`. -/
def ofBytes (start stop : Nat) : Span :=
  between (.ofNat start) (.ofNat stop)

/-- The smallest span that covers both. -/
def merge (a b : Span) : Span :=
  between (min a.start b.start) (max a.stop b.stop)

/-- How far `a` starts after `b`; zero if it does not. -/
def distance (a b : Span) : UInt32 :=
  gap b.start a.start

/-! ## Words as numbers -/

theorem toNat_gap (i j : UInt32) : (gap i j).toNat = j.toNat - i.toNat := by
  rw [gap]
  split
  · rename_i h
    exact UInt32.toNat_sub_of_le _ _ h
  · rename_i h
    rw [UInt32.le_iff_toNat_le] at h
    simp only [UInt32.toNat_zero]
    omega

theorem toNat_stop {s : Span} (h : s.start.toNat + s.length.toNat < UInt32.size) :
    s.stop.toNat = s.start.toNat + s.length.toNat := by
  rw [stop, UInt32.toNat_add]
  exact Nat.mod_eq_of_lt h

@[simp] theorem between_start (i j : UInt32) : (between i j).start = i := rfl

theorem between_stop {i j : UInt32} (h : i ≤ j) : (between i j).stop = j := by
  simp only [stop, between, gap, if_pos h]
  rw [UInt32.add_comm, UInt32.sub_add_cancel]

theorem toNat_ofBytes_start {i : Nat} (j : Nat) (h : i < UInt32.size) :
    (ofBytes i j).start.toNat = i :=
  UInt32.toNat_ofNat_of_lt' h

theorem ofBytes_self (i : Nat) : ofBytes i i = ⟨.ofNat i, 0⟩ := by
  rw [ofBytes, between, gap, if_pos (UInt32.le_refl _), UInt32.sub_self]

theorem toNat_ofBytes_length {i j : Nat} (hi : i < UInt32.size) (hj : j < UInt32.size) :
    (ofBytes i j).length.toNat = j - i := by
  rw [ofBytes, between, toNat_gap, UInt32.toNat_ofNat_of_lt' hi, UInt32.toNat_ofNat_of_lt' hj]

theorem ofBytes_add {i n : Nat} (h : i + n < UInt32.size) :
    ofBytes i (i + n) = ⟨.ofNat i, .ofNat n⟩ := by
  have hlength := toNat_ofBytes_length (i := i) (j := i + n) (by omega) h
  rw [Nat.add_sub_cancel_left] at hlength
  rw [ofBytes, between] at hlength ⊢
  exact congrArg (Span.mk _) (UInt32.toNat_inj.mp
    (hlength.trans (UInt32.toNat_ofNat_of_lt' (by omega)).symm))

/-! ## Merging -/

theorem merge_self {a : Span} (h : a.start ≤ a.stop) : a.merge a = a := by
  have hs : min a.start a.start = a.start := by simp [Min.min]
  have ht : max a.stop a.stop = a.stop := by simp [Max.max]
  rw [merge, hs, ht, between, gap, if_pos h, stop, UInt32.add_comm, UInt32.add_sub_cancel]

end Span

end Monkey
