import Mathlib.Data.String.Basic

/-!
# Texts as bytes

The order of two texts, which goes by their characters, is that of their UTF-8 bytes: of two
characters the lesser one has the lesser first byte, or the bytes are the same up to one that is
less.
-/

namespace Monkey.Text

/-- The bytes of a text in UTF-8. -/
def bytes (s : String) : List UInt8 :=
  s.toUTF8.data.toList

theorem bytes_eq_flatMap (s : String) : bytes s = s.toList.flatMap String.utf8EncodeChar := by
  rw [bytes, ← String.ofList_toList (s := s), String.toUTF8_eq_toByteArray,
    String.toByteArray_ofList, List.utf8Encode, List.toList_data_toByteArray, String.toList_ofList]

theorem bytes_append (s t : String) : bytes (s ++ t) = bytes s ++ bytes t := by
  rw [bytes_eq_flatMap, bytes_eq_flatMap, bytes_eq_flatMap, String.toList_append,
    List.flatMap_append]

theorem toNat_lt_of_char (c : Char) : c.val.toNat < 0x110000 := by
  rcases c.valid with h | h
  · exact Nat.lt_trans h (by decide)
  · exact h.2

/-- The lesser character comes first, whatever bytes follow. -/
theorem encode_lt_encode {c d : Char} (h : c < d) (xs ys : List UInt8) :
    String.utf8EncodeChar c ++ xs < String.utf8EncodeChar d ++ ys := by
  have hc := toNat_lt_of_char c
  have hd := toNat_lt_of_char d
  have hlt : c.val.toNat < d.val.toNat := UInt32.lt_iff_toNat_lt.mp h
  unfold String.utf8EncodeChar
  generalize c.val.toNat = m at *
  generalize d.val.toNat = n at *
  have hm : m / 262144 % 8 = m / 262144 := by omega
  have hn : n / 262144 % 8 = n / 262144 := by omega
  dsimp only
  repeat' split
  all_goals
    simp (disch := omega) only [List.cons_append, List.cons_lt_cons_iff, UInt8.lt_iff_toNat_lt,
      ← UInt8.toNat_inj, UInt8.toNat_ofNat', Nat.mod_eq_of_lt (b := 2 ^ 8), hm, hn]
    -- the six-bit digits agree up to one place
    by_cases h₁ : m / 64 = n / 64
    · omega
    by_cases h₂ : m / 4096 = n / 4096 <;> omega

theorem flatMap_encode_lt {cs ds : List Char} (h : cs < ds) :
    cs.flatMap String.utf8EncodeChar < ds.flatMap String.utf8EncodeChar := by
  induction h with
  | @nil d ds =>
    rw [List.flatMap_nil, List.flatMap_cons]
    cases hd : String.utf8EncodeChar d with
    | nil => exact absurd hd String.utf8EncodeChar_ne_nil
    | cons => exact .nil
  | rel h => exact encode_lt_encode h _ _
  | cons _ ih => exact List.append_left_lt ih

/-- The order of two texts is that of their bytes. -/
theorem lt_iff_bytes {s t : String} : s < t ↔ bytes s < bytes t := by
  have mono : ∀ {s t : String}, s < t → bytes s < bytes t := fun h => by
    rw [bytes_eq_flatMap, bytes_eq_flatMap]
    exact flatMap_encode_lt h
  refine ⟨mono, fun h => ?_⟩
  rcases lt_trichotomy s t with hlt | rfl | hgt
  · exact hlt
  · exact absurd h (List.lt_irrefl _)
  · exact absurd (mono hgt) (List.lt_asymm h)

end Monkey.Text

namespace Monkey

/-- Bytes that can be read as a text are the bytes of that text. -/
theorem toUTF8_of_fromUTF8? {bs : ByteArray} {text : String}
    (h : String.fromUTF8? bs = some text) : text.toUTF8 = bs := by
  rw [String.fromUTF8?] at h
  split at h
  · cases h
    rfl
  · cases h

end Monkey
