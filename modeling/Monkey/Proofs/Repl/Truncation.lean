import Monkey.Proofs.Repl.Transcript
import Monkey.Proofs.Text.Bytes

/-!
# Sinks that fill up

A sink with limited room takes the beginning of what is said, as far as there is room, and the
conversation fails for that exactly if there is more. Else it goes as with an unlimited sink: up to
the end of the input, or up to the first line that is not text.
-/

namespace Monkey

namespace Repl

/-! ## Lines that are text -/

/-- The lines before the first that is not text, and those from it on. -/
theorem exists_texts (ls : List (List UInt8)) :
    ∃ (texts : List String) (bad : List (List UInt8)),
      ls = texts.map (fun t => t.toUTF8.toList) ++ bad ∧
      ∀ l ∈ bad.head?, String.fromUTF8? ⟨l.toArray⟩ = none := by
  induction ls with
  | nil => exact ⟨[], [], rfl, nofun⟩
  | cons l ls ih =>
      cases hl : String.fromUTF8? ⟨l.toArray⟩ with
      | none => exact ⟨[], l :: ls, rfl, by simpa using hl⟩
      | some text =>
          obtain ⟨texts, bad, rfl, hbad⟩ := ih
          have htext : l = text.toUTF8.toList := by
            rw [toUTF8_of_fromUTF8? hl, toList_eq]
          exact ⟨text :: texts, bad, by rw [List.map_cons, ← htext, List.cons_append], hbad⟩

/-! ## Truncation -/

theorem run_some_of_tells {limit : Nat} {input : ByteArray} {text : String}
    {failure : Option Failure}
    (h : Tells (converse (.start limit) (lines input.toList)) text failure) (k : Nat) :
    run limit (some k) input = (text.toUTF8.extract 0 (min k text.toUTF8.size),
      if k < text.toUTF8.size then some .sinkFull else failure) := by
  have hsize : text.toUTF8.size = text.utf8ByteSize := rfl
  rw [(run_of_tells h).2 k, hsize]
  by_cases hk : text.utf8ByteSize ≤ k
  · have hall : text.toUTF8.extract 0 text.utf8ByteSize = text.toUTF8 :=
      ByteArray.extract_zero_size
    rw [if_pos hk, if_neg (Nat.not_lt.mpr hk), Nat.min_eq_right hk, hall]
  · have hlt := Nat.lt_of_not_le hk
    rw [if_neg hk, if_pos hlt, Nat.min_eq_left (Nat.le_of_lt hlt)]

/-- The lines are the input, cut behind each line feed. With room for `k` bytes, the first `k` bytes
are taken of what is said with room for all, and only if there are more the conversation fails for
want of room. With room for all it ends well, or else with the first line that is not text, when all
lines before it have been answered. -/
theorem run_truncates (limit : Nat) (input : ByteArray) :
    (Cut (lines input.toList) ∧ (lines input.toList).flatten = input.toList) ∧
    (∀ k, run limit (some k) input =
      ((run limit none input).1.extract 0 (min k (run limit none input).1.size),
        if k < (run limit none input).1.size then some .sinkFull else (run limit none input).2)) ∧
    ∃ (texts : List String) (bad : List (List UInt8)),
      lines input.toList = texts.map (fun t => t.toUTF8.toList) ++ bad ∧
      (∀ l ∈ bad.head?, String.fromUTF8? ⟨l.toArray⟩ = none) ∧
      run limit none input = ((transcript ((Session.start limit).answers texts)).toUTF8,
        if bad.isEmpty then none else some .notText) := by
  obtain ⟨texts, bad, hlines, hbad⟩ := exists_texts (lines input.toList)
  have htells := tells_converse (.start limit) texts hbad
  rw [← hlines] at htells
  rw [(run_of_tells htells).1]
  exact ⟨⟨cut_lines _, flatten_lines _⟩, run_some_of_tells htells, texts, bad, hlines, hbad, rfl⟩

/-- The third line is not text. There is room for the first prompt and half of the second, or for
all. -/
theorem run_truncates_bad_line :
    let texts := ["let a = 7;\n", "puts(a)\n"]
    let bad : List (List UInt8) := [[34, 255, 34, 10], [97]]
    let input := ((texts.map fun t => t.toUTF8.toList) ++ bad).flatten.toByteArray
    let said := ">> >> 7\nnull\n>> ".toUTF8
    lines input.toList = (texts.map fun t => t.toUTF8.toList) ++ bad ∧
      run 3 none input = (said, some .notText) ∧
      run 3 (some 4) input = (said.extract 0 4, some .sinkFull) ∧
      run 3 (some 16) input = (said, some .notText) := by
  intro texts bad input said
  obtain ⟨-, hroom, -⟩ := run_truncates 3 input
  have hlines : lines input.toList = (texts.map fun t => t.toUTF8.toList) ++ bad := by
    simp only [toList_eq]
    decide +kernel
  have hbad : ∀ l ∈ bad.head?, String.fromUTF8? ⟨l.toArray⟩ = none := by decide +kernel
  have htells := tells_converse (.start 3) texts hbad
  have hanswers : (Session.start 3).answers texts = ["", "7\nnull\n"] := by decide +kernel
  rw [← hlines, hanswers] at htells
  have hall : run 3 none input = (said, some .notText) := (run_of_tells htells).1
  have hsize : said.size = 16 := by decide +kernel
  have hfull : said.extract 0 16 = said := hsize ▸ ByteArray.extract_zero_size
  refine ⟨hlines, hall, (hroom 4).trans ?_, (hroom 16).trans ?_⟩
  · simp only [hall, hsize, Nat.reduceLeDiff, Nat.min_eq_left, Nat.reduceLT, if_true]
  · simp only [hall, hsize, Nat.min_self, Nat.lt_irrefl, if_false, hfull]

end Repl

end Monkey
