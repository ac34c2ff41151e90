import Monkey.Proofs.Parse.Grammar
import Monkey.Token.Scan

/-!
# Words in a text

A text spells some words if it is their texts with gaps between them. A gap is white space and
comments, and may be empty; but since an item is read as long as it can be, no word may be followed
by a character that would go on with it. So a slash that divides is not followed by a comment at
once: three slashes in a row are a comment.
-/

namespace Monkey

open Scan (isWordStart isWordChar unescape?)
open Text (isBlank)

/-! ## Words -/

/-- The text of a mark or a keyword. -/
def Kind.text? : Kind → Option String
  | .kwFn => some "fn"
  | .kwLet => some "let"
  | .kwTrue => some "true"
  | .kwFalse => some "false"
  | .kwIf => some "if"
  | .kwElse => some "else"
  | .kwReturn => some "return"
  | .ident | .integer | .string | .eof => none
  | k => some k.symbol

/-- What may stand between the quotes of a literal, and what it says: a character stands for itself,
or a backslash and a letter for another one. -/
inductive Quotes : List Char → List Char → Prop
  | nil : Quotes [] []
  | plain {c cs vs} : c ≠ '"' → c ≠ '\\' → Quotes cs vs → Quotes (c :: cs) (c :: vs)
  | escaped {c d cs vs} : unescape? c = some d → Quotes cs vs →
      Quotes ('\\' :: c :: cs) (d :: vs)

/-- What stands between the quotes of a literal that may be wrong: what it says, and the first
letter after a backslash that stands for nothing. -/
inductive Body : List Char → List Char → Option Char → Prop
  | nil : Body [] [] none
  | plain {c cs vs bad} : c ≠ '"' → c ≠ '\\' → Body cs vs bad → Body (c :: cs) (c :: vs) bad
  | escaped {c d cs vs bad} : unescape? c = some d → Body cs vs bad →
      Body ('\\' :: c :: cs) (d :: vs) bad
  | unknown {c cs vs bad} : unescape? c = none → Body cs vs bad →
      Body ('\\' :: c :: cs) vs (some c)

theorem Quotes.body {cs vs : List Char} : Quotes cs vs → Body cs vs none
  | .nil => .nil
  | .plain hquote hslash h => .plain hquote hslash h.body
  | .escaped hd h => .escaped hd h.body

theorem Body.quotes {cs vs : List Char} : Body cs vs none → Quotes cs vs
  | .nil => .nil
  | .plain hquote hslash h => .plain hquote hslash h.quotes
  | .escaped hd h => .escaped hd h.quotes

/-- The characters are a text of the word. -/
inductive Word.Written : Word → List Char → Prop
  | ident {c cs} : isWordStart c → (∀ d ∈ cs, isWordChar d) →
      Kind.keyword? (String.ofList (c :: cs)) = none →
      Word.Written (.ident (String.ofList (c :: cs))) (c :: cs)
  | integer {c cs} : (∀ d ∈ c :: cs, d.isDigit) →
      Word.Written (.integer (String.ofList (c :: cs))) (c :: cs)
  | string {cs vs} : Quotes cs vs → Word.Written (.string (String.ofList vs)) ('"' :: cs ++ ['"'])
  | mark {k text} : k.text? = some text → Word.Written (.mark k) text.toList

theorem Word.Written.ne_nil {w : Word} {cs : List Char} (h : w.Written cs) : cs ≠ [] := by
  cases h with
  | ident => exact List.cons_ne_nil _ _
  | integer => exact List.cons_ne_nil _ _
  | string => exact List.cons_ne_nil _ _
  | @mark k text hk => cases k <;> cases hk <;> decide

theorem Word.Written.kind_ne_eof {w : Word} {cs : List Char} (h : w.Written cs) :
    w.kind ≠ .eof := by
  cases h with
  | ident => exact nofun
  | integer => exact nofun
  | string => exact nofun
  | mark hk =>
      rintro rfl
      cases hk

/-- Whether a character right after the word goes on with it. -/
def Word.joins (c : Char) : Word → Bool
  | ident _ | mark .kwFn | mark .kwLet | mark .kwTrue | mark .kwFalse | mark .kwIf | mark .kwElse
  | mark .kwReturn => isWordChar c
  | integer _ => c.isDigit
  | mark .assign | mark .bang | mark .lessThan | mark .greaterThan => c = '='
  | mark .slash => c = '/'
  | _ => false

/-! ## Texts -/

/-- White space and whole comments. -/
inductive Gap : List Char → Prop
  | nil : Gap []
  | blank {c cs} : isBlank c → Gap cs → Gap (c :: cs)
  | comment {cs ds} : '\n' ∉ cs → Gap ds → Gap ('/' :: '/' :: cs ++ '\n' :: ds)

/-- The text of some words, in order; the last gap may end in a comment without an end. -/
inductive Spells : List Word → List Char → Prop
  | nil {gap} : Gap gap → Spells [] gap
  | comment {gap cs} : Gap gap → '\n' ∉ cs → Spells [] (gap ++ '/' :: '/' :: cs)
  | cons {w ws gap cs rest} : Gap gap → w.Written cs → (∀ c ∈ rest.head?, ¬w.joins c) →
      Spells ws rest → Spells (w :: ws) (gap ++ cs ++ rest)

theorem Spells.blank {ws : List Word} {c : Char} {cs : List Char} (hc : isBlank c)
    (h : Spells ws cs) : Spells ws (c :: cs) := by
  cases h with
  | nil hgap => exact .nil (.blank hc hgap)
  | comment hgap hcs => exact .comment (.blank hc hgap) hcs
  | cons hgap hw hnext hrest => exact .cons (.blank hc hgap) hw hnext hrest

theorem Spells.kind_ne_eof {ws : List Word} {cs : List Char} (h : Spells ws cs) :
    ∀ w ∈ ws, w.kind ≠ .eof := by
  induction h with
  | nil => exact nofun
  | comment => exact nofun
  | cons _ hw _ _ ih => exact List.forall_mem_cons.mpr ⟨hw.kind_ne_eof, ih⟩

end Monkey
