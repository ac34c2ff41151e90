import Mathlib.Data.List.Forall2
import Monkey.Proofs.Text.Bytes
import Monkey.Proofs.Token.Slices

/-!
# Line numbers

The lines of a table follow one another without a gap, so halving finds the line of an offset, which
is one more than the number of lines that end at or before it. In the table of a text that is one
more than the number of line feeds in front of the offset.
-/

namespace Monkey

open String (utf8Len)

/-! ## Lines in a row -/

/-- Each line has a byte and starts where the one before it stops, the first one at `start`. -/
inductive LineRange.Row : Nat → List LineRange → Prop
  | nil {start} : Row start []
  | cons {start stop rs} : start < stop → Row stop rs → Row start (⟨start, stop⟩ :: rs)

namespace LineRange.Row

variable {start offset : Nat} {r : LineRange} {rs : List LineRange}

theorem le_start (h : Row start rs) (hr : r ∈ rs) : start ≤ r.start ∧ r.start < r.stop := by
  induction h with
  | nil => cases hr
  | cons hlt _ ih =>
      rcases List.mem_cons.mp hr with rfl | hr
      · exact ⟨Nat.le_refl _, hlt⟩
      · exact ⟨Nat.le_trans (Nat.le_of_lt hlt) (ih hr).1, (ih hr).2⟩

theorem countP_eq_zero (h : Row start rs) (hle : offset ≤ start) :
    rs.countP (·.stop ≤ offset) = 0 := by
  refine List.countP_eq_zero.mpr fun r hr => ?_
  obtain ⟨hstart, hstop⟩ := h.le_start hr
  simp only [decide_eq_true_eq]
  omega

/-- The number of lines that stop at or before an offset is the place of the line around it. -/
theorem side_eq_compare (h : Row start rs) (hle : start ≤ offset) :
    ∀ i, rs[i]? = some r → r.side offset = compare i (rs.countP (·.stop ≤ offset)) := by
  induction h with
  | nil => exact fun _ hi => nomatch hi
  | @cons start stop rs hlt hrow ih =>
      intro i hi
      rw [List.countP_cons]
      by_cases hstop : stop ≤ offset
      · rw [if_pos (by simpa using hstop)]
        cases i with
        | zero =>
            cases hi
            rw [side, if_neg (Nat.not_lt.mpr hle), if_pos hstop]
            exact (Nat.compare_eq_lt.mpr (Nat.zero_lt_succ _)).symm
        | succ i =>
            rw [ih hstop i hi, Nat.compare_eq_ite_lt, Nat.compare_eq_ite_lt]
            simp only [Nat.add_lt_add_iff_right]
      · rw [if_neg (by simpa using hstop), hrow.countP_eq_zero (by omega)]
        cases i with
        | zero =>
            cases hi
            rw [side, if_neg (Nat.not_lt.mpr hle), if_neg hstop]
            rfl
        | succ i =>
            have hstart := (hrow.le_start (List.mem_of_getElem? hi)).1
            rw [side, if_pos (by omega)]
            exact (Nat.compare_eq_gt.mpr (Nat.zero_lt_succ i)).symm

end LineRange.Row

namespace LineTable

open LineRange (Row)

variable {text : String} {offset k : Nat}

/-! ## Look-up -/

/-- The offsets, in bytes, at which the lines end. -/
def ends (t : LineTable) : List Nat :=
  t.ranges.toList.map (·.stop)

theorem search_eq (t : LineTable)
    (hside : ∀ i r, t.ranges[i]? = some r → r.side offset = compare i k) (lo hi : Nat)
    (hlo : lo ≤ k) (hhi : hi ≤ t.ranges.size) :
    t.search offset lo hi = if k < hi then some k else none := by
  fun_induction search t offset lo hi with
  | case1 lo hi hlt mid hnone =>
      have := Array.getElem?_eq_none_iff.mp hnone
      omega
  | case2 lo hi hlt mid r hr hgt ih =>
      rw [hside _ _ hr, Nat.compare_eq_gt] at hgt
      rw [ih hlo (by omega), if_pos hgt, if_pos (by omega)]
  | case3 lo hi hlt mid r hr hless ih =>
      rw [hside _ _ hr, Nat.compare_eq_lt] at hless
      exact ih hless hhi
  | case4 lo hi hlt mid r hr heq =>
      rw [hside _ _ hr, Nat.compare_eq_eq] at heq
      rw [if_pos (by omega), heq]
  | case5 lo hi hge => rw [if_neg (by omega)]

theorem line_eq_countP {t : LineTable} (h : Row 0 t.ranges.toList) (offset : UInt32) :
    t.line offset = t.ends.countP (· ≤ offset.toNat) + 1 := by
  have hle : t.ranges.toList.countP (·.stop ≤ offset.toNat) ≤ t.ranges.size := by
    rw [← Array.length_toList]
    exact List.countP_le_length
  have hcount : t.ends.countP (· ≤ offset.toNat) =
      t.ranges.toList.countP (·.stop ≤ offset.toNat) := by
    rw [ends, List.countP_map]
    rfl
  have hside : ∀ i r, t.ranges[i]? = some r → r.side offset.toNat =
      compare i (t.ranges.toList.countP (·.stop ≤ offset.toNat)) := fun i r hr =>
    h.side_eq_compare (Nat.zero_le _) i (by simpa using hr)
  rw [hcount, line, t.search_eq hside 0 _ (Nat.zero_le _) (Nat.le_refl _)]
  split
  · rename_i i hi
    split at hi <;> cases hi
    rfl
  · rename_i hnone
    split at hnone
    · cases hnone
    · rw [maxLine]
      omega

theorem line_pos (t : LineTable) (offset : UInt32) : 1 ≤ t.line offset := by
  rw [line]
  split <;> exact Nat.succ_le_succ (Nat.zero_le _)

/-- An offset further on is not on an earlier line. -/
theorem line_le_line {t : LineTable} (h : Row 0 t.ranges.toList) {i j : UInt32} (hle : i ≤ j) :
    t.line i ≤ t.line j := by
  rw [line_eq_countP h, line_eq_countP h]
  refine Nat.succ_le_succ (List.countP_mono_left fun e _ he => ?_)
  simp only [decide_eq_true_eq] at he ⊢
  exact Nat.le_trans he (UInt32.le_iff_toNat_le.mp hle)

/-! ## The table of a text -/

theorem rangesFrom_row (bs : List UInt8) : ∀ (start pos : Nat) (isOpen : Bool), start ≤ pos →
    Row start (rangesFrom start pos isOpen bs) := by
  induction bs with
  | nil =>
      intro start pos isOpen hle
      cases isOpen with
      | true => exact .cons (Nat.lt_succ_of_le hle) .nil
      | false => exact .nil
  | cons b bs ih =>
      intro start pos isOpen hle
      rw [rangesFrom]
      split
      · exact .cons (Nat.lt_succ_of_le hle) (ih _ _ _ (Nat.le_refl _))
      · exact ih _ _ _ (Nat.le_succ_of_le hle)

theorem ofText_row (text : String) : Row 0 (ofText text).ranges.toList :=
  rangesFrom_row _ 0 0 _ (Nat.le_refl 0)

theorem lt_stop_of_mem (bs : List UInt8) : ∀ (start pos : Nat) (isOpen : Bool),
    ∀ r ∈ rangesFrom start pos isOpen bs, pos < r.stop := by
  induction bs with
  | nil =>
      intro start pos isOpen r hr
      cases isOpen with
      | true =>
          cases List.mem_singleton.mp hr
          exact Nat.lt_succ_self pos
      | false => cases hr
  | cons b bs ih =>
      intro start pos isOpen r hr
      rw [rangesFrom] at hr
      split at hr
      · rcases List.mem_cons.mp hr with rfl | hr
        · exact Nat.lt_succ_self pos
        · exact Nat.lt_of_succ_lt (ih _ _ _ r hr)
      · exact Nat.lt_of_succ_lt (ih _ _ _ r hr)

/-- As many lines have ended as line feeds have been passed. -/
theorem countP_rangesFrom (bs : List UInt8) : ∀ (start pos : Nat) (isOpen : Bool) (n : Nat),
    n ≤ bs.length →
    (rangesFrom start pos isOpen bs).countP (·.stop ≤ pos + n) = (bs.take n).count 10 := by
  have hzero : ∀ (bs : List UInt8) (start pos : Nat) (isOpen : Bool),
      (rangesFrom start pos isOpen bs).countP (·.stop ≤ pos + 0) = (bs.take 0).count 10 :=
    fun bs start pos isOpen => List.countP_eq_zero.mpr fun r hr => by
      simpa using lt_stop_of_mem bs start pos isOpen r hr
  induction bs with
  | nil =>
      intro start pos isOpen n hn
      cases Nat.le_zero.mp hn
      exact hzero [] start pos isOpen
  | cons b bs ih =>
      intro start pos isOpen n hn
      cases n with
      | zero => exact hzero (b :: bs) start pos isOpen
      | succ n =>
          have hrest := fun start isOpen =>
            ih start (pos + 1) isOpen n (Nat.le_of_succ_le_succ hn)
          rw [Nat.add_right_comm pos 1 n] at hrest
          rw [List.take_succ_cons, List.count_cons, rangesFrom, ← Nat.add_assoc]
          by_cases hb : b = 10
          · rw [if_pos hb, List.countP_cons, hrest, if_pos (by simp), if_pos (by simp [hb])]
          · rw [if_neg hb, hrest, if_neg (by simpa using hb), Nat.add_zero]

theorem line_ofText (text : String) {offset : UInt32} (h : offset.toNat ≤ text.utf8ByteSize) :
    (ofText text).line offset = ((Text.bytes text).take offset.toNat).count 10 + 1 := by
  have hcount := countP_rangesFrom (Text.bytes text) 0 0 text.isEmpty offset.toNat h
  rw [Nat.zero_add] at hcount
  rw [line_eq_countP (ofText_row text), ← hcount, ends, List.countP_map]
  rfl

/-- The last line does not end before the text does. -/
theorem exists_le_stop (bs : List UInt8) : ∀ (start pos : Nat) (isOpen : Bool),
    isOpen = true ∨ bs ≠ [] →
    ∃ r ∈ rangesFrom start pos isOpen bs, pos + bs.length ≤ r.stop := by
  induction bs with
  | nil =>
      rintro start pos isOpen (rfl | h)
      · exact ⟨⟨start, pos + 1⟩, .head _, Nat.le_succ pos⟩
      · exact absurd rfl h
  | cons b bs ih =>
      intro start pos isOpen _
      rw [rangesFrom, List.length_cons, Nat.add_comm bs.length, ← Nat.add_assoc]
      split
      · cases bs with
        | nil => exact ⟨⟨start, pos + 1⟩, .head _, Nat.le_refl _⟩
        | cons b' bs =>
            obtain ⟨r, hr, hle⟩ := ih (pos + 1) (pos + 1) false (.inr (List.cons_ne_nil b' bs))
            exact ⟨r, .tail _ hr, hle⟩
      · exact ih start (pos + 1) true (.inl rfl)

/-- The line of a byte of the text is one of the table. -/
theorem line_le_length {text : String} {offset : UInt32} (h : offset.toNat < text.utf8ByteSize) :
    (ofText text).line offset ≤ (ofText text).ends.length := by
  have hne : Text.bytes text ≠ [] := List.ne_nil_of_length_pos (Nat.zero_lt_of_lt h)
  obtain ⟨r, hr, hle⟩ := exists_le_stop (Text.bytes text) 0 0 text.isEmpty (.inr hne)
  have hlt : offset.toNat < r.stop := by
    rw [Nat.zero_add] at hle
    exact Nat.lt_of_lt_of_le h hle
  rw [line_eq_countP (ofText_row text)]
  refine Nat.lt_of_le_of_ne List.countP_le_length fun hall => ?_
  have hmem : r.stop ∈ (ofText text).ends := List.mem_map_of_mem hr
  have hstop := of_decide_eq_true (List.countP_eq_length.mp hall r.stop hmem)
  omega

end LineTable

/-! ## Listed items -/

/-- The text begins with a line number. -/
def Text.Numbered (n : Nat) (text : String) : Prop :=
  ∃ rest, text = "(" ++ toString n ++ ") " ++ rest

/-- The items, and then the end once. -/
def TokenStream.upToEnd (s : TokenStream) : List Item :=
  s.items ++ [.ok s.final]

namespace Item

variable {text : String}

/-- The item on a line of its own, after its line number. -/
def listing (lines : LineTable) : Item → String
  | .ok t => t.listing lines
  | .error e => e.listing lines

theorem numbered_listing (lines : LineTable) (i : Item) :
    Text.Numbered (lines.line i.span.start) (i.listing lines) := by
  cases i with
  | ok t => exact ⟨_, rfl⟩
  | error e =>
      have hmark : ") ILLEGAL " = ") " ++ "ILLEGAL " := rfl
      rw [listing, LexicalError.listing, hmark, ← String.append_assoc, String.append_assoc]
      exact ⟨_, rfl⟩

/-- The items and the end of a text start one after the other. -/
theorem pairwise_start_ofText (hsize : text.utf8ByteSize < UInt32.size) :
    (TokenStream.ofText text).upToEnd.Pairwise fun i j => i.span.start ≤ j.span.start := by
  have hcovered : Covered 0 text.toList (TokenStream.ofText text).items := scan_covered hsize
  have hstart (i : Item) : i.start ≤ i.stop := Nat.le_add_right _ _
  refine List.pairwise_append.mpr ⟨hcovered.pairwise.imp fun {i j} hij => ?_,
    List.pairwise_singleton _ _, fun i hi j hj => ?_⟩
  · exact UInt32.le_iff_toNat_le.mpr (Nat.le_trans (hstart i) hij)
  · cases List.mem_singleton.mp hj
    have hstop := hcovered.stop_le hi
    rw [Nat.zero_add, utf8Len_toList] at hstop
    have hend : (TokenStream.ofText text).stop.start.toNat = text.utf8ByteSize :=
      Span.toNat_ofBytes_start _ hsize
    refine UInt32.le_iff_toNat_le.mpr (Nat.le_trans (hstart i) (Nat.le_trans hstop ?_))
    exact Nat.le_of_eq hend.symm

end Item

/-- The line of an offset is one more than the number of line feeds in front of it. So the lines in
the listing of a text, that of the end as the last one, never decrease, and an end behind a line
feed is on the line after it. -/
theorem LineTable.line_ofText_listed {text : String} (hsize : text.utf8ByteSize < UInt32.size - 1) :
    (∀ offset : UInt32, offset.toNat ≤ text.utf8ByteSize →
      (ofText text).line offset = ((Text.bytes text).take offset.toNat).count 10 + 1) ∧
    (∃ ns : List Nat, ns.Pairwise (· ≤ ·) ∧ List.Forall₂ Text.Numbered ns
      ((TokenStream.ofText text).upToEnd.map (Item.listing (ofText text)))) ∧
    ∀ before, text = before ++ "\n" →
      (ofText text).line (TokenStream.ofText text).stop.start =
        (ofText text).line (.ofNat before.utf8ByteSize) + 1 := by
  have hsize' : text.utf8ByteSize < UInt32.size := by omega
  refine ⟨fun offset => line_ofText text, ?_, ?_⟩
  · refine ⟨(TokenStream.ofText text).upToEnd.map fun i => (ofText text).line i.span.start,
      ?_, ?_⟩
    · exact List.pairwise_map.mpr ((Item.pairwise_start_ofText hsize').imp
        (line_le_line (ofText_row text)))
    · rw [List.forall₂_map_left_iff, List.forall₂_map_right_iff, List.forall₂_same]
      exact fun i _ => i.numbered_listing _
  · rintro before rfl
    have hbytes : Text.bytes (before ++ "\n") = Text.bytes before ++ [10] := by
      rw [Text.bytes_append]
      rfl
    have hlength : (Text.bytes before).length = before.utf8ByteSize := rfl
    have hadd : (before ++ "\n").utf8ByteSize = before.utf8ByteSize + 1 :=
      String.utf8ByteSize_append ..
    have hend : (TokenStream.ofText (before ++ "\n")).stop.start.toNat = before.utf8ByteSize + 1 :=
      (Span.toNat_ofBytes_start _ hsize').trans hadd
    have hfeed : (UInt32.ofNat before.utf8ByteSize).toNat = before.utf8ByteSize :=
      UInt32.toNat_ofNat_of_lt' (by omega)
    rw [line_ofText _ (by omega), line_ofText _ (by omega), hend, hfeed, hbytes,
      List.take_left' hlength, List.take_of_length_le (by simp [hlength]), List.count_append,
      List.count_singleton_self]

/-- A string goes on over a line feed, and so does the text behind the last token. -/
theorem LineTable.line_ofText_listed_string :
    let text := "é\n\n\"x\n\" y" ++ "\n"
    text.utf8ByteSize < UInt32.size - 1 ∧ (ofText text).line 8 = 4 ∧
      (ofText text).line (TokenStream.ofText text).stop.start = (ofText text).line 10 + 1 ∧
      (TokenStream.ofText text).upToEnd.map (Item.listing (ofText text)) =
        ["(1) ILLEGAL é", "(3) STRING \"x\\n\"", "(4) IDENT y", "(5) EOF"] := by
  intro text
  have hsize : text.utf8ByteSize < UInt32.size - 1 := by decide
  obtain ⟨hline, -, hend⟩ := line_ofText_listed hsize
  exact ⟨hsize, (hline 8 (by decide)).trans (by decide), hend _ rfl, by decide +kernel⟩

end Monkey
