import Monkey.Proofs.Eval.Literal
import Monkey.Proofs.Parse.Expressible

/-!
# Printed values

The text that is printed for a value with a literal spells that literal, so it reads back as the
value.
-/

namespace Monkey

open Scan (isWordChar)

/-! ## Texts in front of others -/

/-- The characters spell the words, also in front of other words, as long as these do not begin with
a letter, a digit or an underscore. -/
def Renders (ws : List Word) (cs : List Char) : Prop :=
  ∀ vs rest, (∀ c ∈ rest.head?, ¬isWordChar c) → Spells vs rest → Spells (ws ++ vs) (cs ++ rest)

namespace Renders

variable {ws vs : List Word} {cs ds : List Char}

theorem nil : Renders [] [] :=
  fun _ _ _ h => h

theorem append (h : Renders ws cs) (hds : ∀ c ∈ ds.head?, ¬isWordChar c) (h' : Renders vs ds) :
    Renders (ws ++ vs) (cs ++ ds) := by
  intro us rest hrest hus
  rw [List.append_assoc, List.append_assoc]
  refine h _ _ (fun c hc => ?_) (h' us rest hrest hus)
  -- behind an empty text comes what follows both
  cases ds with
  | nil => exact hrest c hc
  | cons d ds => exact hds c hc

theorem blank (h : Renders ws cs) : Renders ws (' ' :: cs) :=
  fun vs rest hrest hvs => (h vs rest hrest hvs).blank rfl

/-- A word that nothing goes on with, but perhaps a letter, a digit or an underscore. -/
theorem word {w : Word} (hw : w.Written cs) (hjoins : ∀ c, w.joins c → isWordChar c) :
    Renders [w] cs :=
  fun _ _ hrest hvs => .cons .nil hw (fun c hc hj => hrest c hc (hjoins c hj)) hvs

/-- A mark that nothing goes on with. -/
theorem mark {k : Kind} {text : String} (hk : k.text? = some text)
    (hjoins : ∀ c, (Word.mark k).joins c = false) (h : Renders ws cs) :
    Renders (.mark k :: ws) (text.toList ++ cs) :=
  fun vs rest hrest hvs => by
    rw [List.append_assoc]
    exact .cons .nil (.mark hk) (fun c _ => by simp [hjoins c]) (h vs rest hrest hvs)

/-- A comma and a blank between the two. -/
theorem comma (h : Renders ws cs) (h' : Renders vs ds) :
    Renders (ws ++ .mark .comma :: vs) (cs ++ (", ".toList ++ ds)) :=
  have hcomma : Renders (.mark .comma :: vs) (',' :: ' ' :: ds) :=
    .mark (k := .comma) rfl (fun _ => rfl) h'.blank
  h.append (by simp [isWordChar]) hcomma

theorem enclosed {k l : Kind} {t : String} {d : Char} (hk : k.text? = some t)
    (hkj : ∀ c, (Word.mark k).joins c = false) (hl : l.text? = some (String.ofList [d]))
    (hlj : ∀ c, (Word.mark l).joins c = false) (hd : ¬isWordChar d) (h : Renders ws cs) :
    Renders (.mark k :: ws ++ [.mark l]) (t.toList ++ (cs ++ [d])) := by
  have hlast : Renders [.mark l] [d] := by
    simpa using mark hl hlj nil
  exact .mark hk hkj (h.append (by simpa using hd) hlast)

theorem digits (n : Nat) :
    Renders [.integer (String.ofList (Nat.toDigits 10 n))] (Nat.toDigits 10 n) :=
  word (.toDigits n) fun c hc => by
    have hc : c.isDigit = true := hc
    simp [isWordChar, Char.isAlphanum, hc]

theorem spells (h : Renders ws cs) : Spells ws cs := by
  simpa using h [] [] nofun (.nil .nil)

end Renders

/-! ## Literals -/

theorem Text.toList_ofInt64_of_nonneg {v : Int64} (h : 0 ≤ v.toInt) :
    (Text.ofInt64 v).toList = Nat.toDigits 10 v.toInt.toNat := by
  rw [Text.ofInt64, Int.toString_eq_repr, Int.repr_eq_if, if_pos h, Nat.toList_repr]

theorem Text.toList_ofInt64_of_neg {v : Int64} (h : v.toInt < 0) (hmin : v ≠ .minValue) :
    (-v).toInt = -v.toInt ∧
      (Text.ofInt64 v).toList = "-".toList ++ Nat.toDigits 10 (-v).toInt.toNat := by
  have hneg : (-v).toInt = -v.toInt := by
    have hne : v.toInt ≠ -2 ^ 63 := fun he => hmin (Int64.toInt_inj.mp he)
    have hle : -2 ^ 63 ≤ v.toInt := v.minValue_le_toInt
    rw [Int64.toInt_neg, Int.bmod_eq_of_le] <;> omega
  refine ⟨hneg, ?_⟩
  rw [Text.ofInt64, Int.toString_eq_repr, Int.repr_eq_if, if_neg (by omega), String.toList_append,
    Nat.toList_repr, hneg]

theorem HashKey.exists_rendered (k : HashKey) (h : k.Printable) :
    ∃ ws, Renders ws k.text.toList ∧
      Expr.Spelled false Precedence.unary.rank (k.literal h) ws := by
  cases k with
  | int v =>
      simp only [literal, text]
      split
      · rename_i hv
        obtain ⟨hneg, htext⟩ := Text.toList_ofInt64_of_neg hv h
        rw [htext]
        exact ⟨_, .mark (k := .minus) rfl (fun _ => rfl) (.digits _),
          .unary (k := .minus) rfl (Nat.le_refl _) (.int (int64?_toDigits (by omega)))⟩
      · rename_i hv
        rw [Text.toList_ofInt64_of_nonneg (by omega)]
        exact ⟨_, .digits _, .int (int64?_toDigits (by omega))⟩
  | bool b =>
      cases b with
      | true => exact ⟨_, .word (.mark (k := .kwTrue) rfl) fun _ hc => hc, .yes⟩
      | false => exact ⟨_, .word (.mark (k := .kwFalse) rfl) fun _ hc => hc, .no⟩
  | str _ => exact h.elim

theorem Expr.SpelledTail.of_list {lax : Bool} {e : Expr} {es : List Expr} {ws : List Word}
    (h : Expr.SpelledList lax (e :: es) ws) :
    Expr.SpelledTail lax (e :: es) (.mark .comma :: ws) := by
  cases h with
  | cons he hes => exact .cons he hes

/-- A colon and a blank between a key and its value. -/
theorem Renders.colon {ks vs : List Word} {k v : String} (hk : Renders ks k.toList)
    (hv : Renders vs v.toList) :
    Renders (ks ++ .mark .colon :: vs) (k ++ ": " ++ v).toList := by
  have hcolon : Renders (.mark .colon :: vs) (':' :: ' ' :: v.toList) :=
    .mark (k := .colon) rfl (fun _ => rfl) hv.blank
  simpa using hk.append (by simp [isWordChar]) hcolon

mutual
theorem Value.exists_rendered : (v : Value) → (h : v.Printable) →
    ∃ ws, Renders ws v.text.toList ∧ Expr.Spelled false 0 (v.literal h) ws
  | .int v, h => by
      obtain ⟨ws, hw, hs⟩ := HashKey.exists_rendered (.int v) h
      exact ⟨ws, hw, hs.mono (Nat.zero_le _)⟩
  | .bool b, h => by
      obtain ⟨ws, hw, hs⟩ := HashKey.exists_rendered (.bool b) h
      exact ⟨ws, hw, hs.mono (Nat.zero_le _)⟩
  | .array items, h => by
      obtain ⟨ws, hw, hs⟩ := Value.exists_renderedList items h
      have htext := Renders.enclosed (k := .leftBracket) (l := .rightBracket) (t := "[") (d := ']')
        rfl (fun _ => rfl) rfl (fun _ => rfl) (by decide) hw
      refine ⟨_, ?_, .array hs⟩
      simpa [Value.text] using htext
  | .hash entries, h => by
      obtain ⟨ws, hw, hs⟩ := Value.exists_renderedEntries entries h.2
      have htext := Renders.enclosed (k := .leftBrace) (l := .rightBrace) (t := "\x7b")
        (d := '\x7d') rfl (fun _ => rfl) rfl (fun _ => rfl) (by decide) hw
      refine ⟨_, ?_, .hash hs⟩
      simpa [Value.text] using htext

theorem Value.exists_renderedList : (vs : List Value) → (h : Value.PrintableAll vs) →
    ∃ ws, Renders ws (", ".intercalate (Value.texts vs)).toList ∧
      Expr.SpelledList false (Value.literals vs h) ws
  | [], _ => ⟨[], .nil, .nil⟩
  | [v], h => by
      obtain ⟨ws, hw, hs⟩ := v.exists_rendered h.1
      refine ⟨ws ++ [], ?_, .cons hs .nil⟩
      simpa [Value.texts] using hw
  | v :: v' :: vs, h => by
      obtain ⟨ws, hw, hs⟩ := v.exists_rendered h.1
      obtain ⟨us, hu, hus⟩ := Value.exists_renderedList (v' :: vs) h.2
      refine ⟨_, ?_, .cons hs (.of_list hus)⟩
      simpa [Value.texts] using hw.comma hu

theorem Value.exists_renderedEntries : (es : List (HashKey × Value)) →
    (h : Value.PrintableEntries es) →
    ∃ ws, Renders ws (", ".intercalate (Value.entryTexts es)).toList ∧
      Expr.SpelledPairs false (Value.entryLiterals es h) ws
  | [], _ => ⟨[], .nil, .nil⟩
  | [(k, v)], h => by
      obtain ⟨ks, hk, hks⟩ := k.exists_rendered h.1
      obtain ⟨vs, hv, hvs⟩ := v.exists_rendered h.2.1
      refine ⟨_, ?_, .cons (hks.mono (Nat.zero_le _)) hvs (.omitted rfl) .nil⟩
      simpa [Value.entryTexts] using hk.colon hv
  | (k, v) :: e :: es, h => by
      obtain ⟨ks, hk, hks⟩ := k.exists_rendered h.1
      obtain ⟨vs, hv, hvs⟩ := v.exists_rendered h.2.1
      obtain ⟨us, hu, hus⟩ := Value.exists_renderedEntries (e :: es) h.2.2
      refine ⟨_, ?_, .cons (hks.mono (Nat.zero_le _)) hvs .written hus⟩
      simpa [Value.entryTexts] using (hk.colon hv).comma hu
end

/-! ## Reading back -/

/-- The text of a value with a literal is a program without errors whose value it is. -/
theorem Value.run_parse_text {v : Value} (h : v.Printable) :
    (parse v.text).errors = [] ∧ ∀ (limit : Nat) (env : Env) (w : World),
      (Program.run limit env (parse v.text).program w).1 = v ∧
        (Program.run limit env (parse v.text).program w).2.erase = w.erase := by
  obtain ⟨ws, hw, hs⟩ := v.exists_rendered h
  have hp : Stmt.SpelledList false [.expr (v.literal h) .zero] (ws ++ [] ++ []) :=
    .cons (.expr hs) (.omitted (.inr rfl)) .nil
  rw [List.append_nil, List.append_nil] at hp
  obtain ⟨herrors, hprogram⟩ := parse_of_spells hp hw.spells
  exact ⟨herrors, fun limit env w => Program.run_literal limit env h hprogram w⟩

/-- The hash `{-3: [-9223372036854775807, true], false: {}}`. -/
theorem Value.run_parse_text_nested :
    let v : Value := .hash [(.int (-3), .array [.int (-9223372036854775807), .bool true]),
      (.bool false, .hash [])]
    v.Printable ∧ v.text = "\x7b-3: [-9223372036854775807, true], false: \x7b\x7d\x7d" ∧
      (parse v.text).errors = [] ∧
      (Program.run 1 World.empty.newEnv.1 (parse v.text).program World.empty.newEnv.2).1 = v := by
  intro v
  have hsorted : Entries.Sorted [(HashKey.int (-3), Value.array
      [.int (-9223372036854775807), .bool true]), (.bool false, .hash [])] := by
    unfold Entries.Sorted
    decide
  have hkey : (-3 : Int64) ≠ .minValue := by decide
  have hitem : (-9223372036854775807 : Int64) ≠ .minValue := by decide
  have h : v.Printable :=
    ⟨hsorted, hkey, ⟨hitem, trivial, trivial⟩, trivial, ⟨.nil, trivial⟩, trivial⟩
  obtain ⟨herrors, hrun⟩ := Value.run_parse_text h
  exact ⟨h, by decide +kernel, herrors, (hrun 1 _ _).1⟩

end Monkey
