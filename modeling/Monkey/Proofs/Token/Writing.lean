import Monkey.Proofs.Token.Scanning

/-!
# Tokens written out are read back

Words are written one after the other, with white space and comments between them. The reader makes
of such a text the tokens of the words, each at the place where it was written. Only a slash needs
care: a comment right behind it would take it in, for three slashes in a row are a comment.
-/

namespace Monkey

open String (utf8Len)
open Text (isBlank)

/-! ## Pieces of a text -/

/-- What the token of a word says. -/
def Word.lexeme : Word → String
  | ident text | integer text | string text => text
  | mark k => k.text?.getD ""

/-- The token of a word that takes up `length` bytes from the offset `pos` on. -/
def Word.token (w : Word) (pos length : Nat) : Token :=
  ⟨w.kind, w.lexeme, ⟨.ofNat pos, .ofNat length⟩⟩

/-- A word, the text that it is written as, and what separates it from the next word. -/
structure Piece where
  word : Word
  text : List Char
  gap : List Char

namespace Piece

def chars (p : Piece) : List Char :=
  p.text ++ p.gap

/-- The text of pieces, one after the other. -/
def joined (ps : List Piece) : List Char :=
  ps.flatMap chars

/-- The tokens of pieces that are written from the offset `pos` on. -/
def tokens (pos : Nat) : List Piece → List Token
  | [] => []
  | p :: ps => p.word.token pos (utf8Len p.text) :: tokens (pos + utf8Len p.chars) ps

/-- Each text is one of its word, and what stands between two words is white space and comments, and
not empty. -/
inductive Separated : List Piece → Prop
  | nil : Separated []
  | cons {p : Piece} {ps : List Piece} : p.word.Written p.text → Gap p.gap →
      (ps ≠ [] → p.gap ≠ []) → Separated ps → Separated (p :: ps)

/-- The text of the piece is no slash with a comment right behind it. -/
def Apart (p : Piece) : Prop :=
  p.word = .mark .slash → p.gap.head? ≠ some '/'

@[simp] theorem joined_nil : joined [] = [] := rfl

@[simp] theorem joined_cons (p : Piece) (ps : List Piece) :
    joined (p :: ps) = p.text ++ (p.gap ++ joined ps) := by
  simp [joined, chars]

end Piece

/-! ## Words and gaps -/

/-- The token that a text of a word is read as. -/
theorem Token.eq_word_token {t : Token} {w : Word} {cs : List Char} {pos : Nat}
    (hw : w.Written cs) (ht : t.word = w) (hlexeme : t.kind ≠ .string → t.lexeme = String.ofList cs)
    (hspan : t.span = .ofBytes pos (pos + utf8Len cs)) (hsize : pos + utf8Len cs < UInt32.size) :
    t = w.token pos (utf8Len cs) := by
  have hkind : t.kind = w.kind := by rw [← ht, Token.word_kind]
  have hword : t.lexeme = w.lexeme := by
    cases hw with
    | ident => exact hlexeme (hkind ▸ nofun)
    | integer => exact hlexeme (hkind ▸ nofun)
    | string => exact Word.string.inj ((Token.word_string hkind).symm.trans ht)
    | @mark k text hk =>
        have hstring : t.kind ≠ .string := by
          rw [hkind]
          rintro rfl
          cases hk
        rw [hlexeme hstring, String.ofList_toList, Word.lexeme, hk, Option.getD_some]
  rw [Span.ofBytes_add hsize] at hspan
  obtain ⟨_, _, _⟩ := t
  cases hkind
  cases hword
  cases hspan
  rfl

theorem Scan.not_isWordChar_of_isBlank {c : Char} (h : isBlank c) : ¬isWordChar c := by
  intro hc
  have hb := toNat_of_isBlank h
  simp only [isWordChar, Char.isAlphanum, Bool.or_eq_true, decide_eq_true_eq] at hc
  rcases hc with (hc | hc) | rfl
  · have hs := toNat_of_isWordStart (c := c) (by simp [isWordStart, hc])
    omega
  · have hd := toNat_of_isDigit hc
    omega
  · exact absurd hb (by decide)

theorem Word.not_joins_of_isBlank {c : Char} (h : isBlank c) (w : Word) : ¬w.joins c := by
  have hword := Scan.not_isWordChar_of_isBlank h
  have hdigit : ¬c.isDigit := fun hd => hword (by simp [Scan.isWordChar, Char.isAlphanum, hd])
  have hne {d : Char} (hd : isBlank d = false) : c ≠ d := by
    rintro rfl
    rw [h] at hd
    cases hd
  have hequal : ¬decide (c = '=') := by simpa using hne rfl
  have hslash : ¬decide (c = '/') := by simpa using hne rfl
  cases w with
  | ident => exact hword
  | integer => exact hdigit
  | string => exact Bool.false_ne_true
  | mark k =>
      cases k
      case kwFn | kwLet | kwTrue | kwFalse | kwIf | kwElse | kwReturn => exact hword
      case assign | bang | lessThan | greaterThan => exact hequal
      case slash => exact hslash
      all_goals exact Bool.false_ne_true

theorem Word.joins_slash {w : Word} (h : w.joins '/') : w = .mark .slash := by
  cases w with
  | mark k =>
      cases k
      case slash => rfl
      all_goals cases h
  | _ => cases h

/-- A gap does not go on with the word in front of it, unless it is a comment behind a slash. -/
theorem Gap.not_joins {w : Word} {gap : List Char} (h : Gap gap)
    (hslash : w = .mark .slash → gap.head? ≠ some '/') : ∀ c ∈ gap.head?, ¬w.joins c := by
  rintro c hc hjoins
  cases h with
  | nil => cases hc
  | blank hb =>
      cases hc
      exact w.not_joins_of_isBlank hb hjoins
  | comment =>
      cases hc
      exact hslash (Word.joins_slash hjoins) rfl

/-! ## Reading -/

namespace Piece

open Scan (feed)

variable {p : Piece} {ps : List Piece}

/-- What comes behind the text of a piece does not go on with its word. -/
theorem not_joins (hp : p.Apart) (hgap : Gap p.gap) (hne : ps ≠ [] → p.gap ≠ []) :
    ∀ c ∈ (p.gap ++ joined ps).head?, ¬p.word.joins c := by
  intro c hc
  by_cases hg : p.gap = []
  · have hnil : ps = [] := by_contra fun h => hne h hg
    rw [hg, hnil] at hc
    cases hc
  · rw [List.head?_append_of_ne_nil _ hg] at hc
    exact hgap.not_joins hp c hc

/-- Separated pieces spell their words. -/
theorem Separated.spells (h : Separated ps) (hps : ∀ p ∈ ps, p.Apart) {gap : List Char}
    (hgap : Gap gap) : Spells (ps.map word) (gap ++ joined ps) := by
  induction h generalizing gap with
  | nil =>
      rw [joined_nil, List.append_nil]
      exact .nil hgap
  | cons hw hgap' hne _ ih =>
      obtain ⟨hp, hps⟩ := List.forall_mem_cons.mp hps
      rw [joined_cons, ← List.append_assoc]
      exact .cons hgap hw (not_joins hp hgap' hne) (ih hps hgap')

theorem foldl_joined (h : Separated ps) (hps : ∀ p ∈ ps, p.Apart) (pos : Nat)
    (items : Array Item) (hsize : pos + utf8Len (joined ps) < UInt32.size) :
    ((joined ps).foldl feed ⟨pos, .gap, items⟩).finish =
      items.toList ++ (tokens pos ps).map .ok := by
  induction h generalizing pos items with
  | nil => simp [tokens]
  | @cons p ps hw hgap hne _ ih =>
      obtain ⟨hp, hps⟩ := List.forall_mem_cons.mp hps
      rw [joined_cons, Scan.utf8Len_append_add, Scan.utf8Len_append_add] at hsize
      obtain ⟨t, ht, hlexeme, hspan, hpast⟩ := Scan.past_written hw pos items
      obtain rfl := Token.eq_word_token hw ht hlexeme hspan (by omega)
      have hjoins := not_joins hp hgap hne
      rw [joined_cons, List.foldl_append, hpast.finish_foldl hjoins, List.foldl_append,
        Scan.foldl_gap hgap, ih hps _ _ hsize, tokens, chars, Scan.utf8Len_append_add]
      simp

end Piece

/-- A text that was written word by word is cut into the tokens of the words, each at its place. -/
theorem ofText_joined {gap : List Char} {ps : List Piece} (hgap : Gap gap)
    (h : Piece.Separated ps) (hps : ∀ p ∈ ps, p.Apart)
    (hsize : utf8Len (gap ++ Piece.joined ps) < UInt32.size) :
    TokenStream.ofText (String.ofList (gap ++ Piece.joined ps)) =
      ⟨(Piece.tokens (utf8Len gap) ps).map .ok,
        ⟨.ofNat (utf8Len (gap ++ Piece.joined ps)), 0⟩⟩ := by
  have hsize' : utf8Len gap + utf8Len (Piece.joined ps) < UInt32.size := by
    rwa [← String.utf8Len_append]
  have hrun := Piece.foldl_joined h hps (utf8Len gap) #[] hsize'
  rw [TokenStream.ofText, scan, Scan.start, String.toList_ofList, List.foldl_append,
    Scan.foldl_gap hgap, Nat.zero_add, hrun, String.utf8ByteSize_ofList, Span.ofBytes_self]
  rfl

/-- The text is a slash, a comment, a literal with an escaped quote and a line feed in it, and a
name that begins like a keyword. -/
theorem ofText_joined_division :
    let ps : List Piece := [⟨.mark .slash, ['/'], [' ', '/', '/', 'c', '\n']⟩,
      ⟨.string "é\"\n", ['"', 'é', '\\', '"', '\n', '"'], ['\n']⟩,
      ⟨.ident "let1", ['l', 'e', 't', '1'], []⟩]
    Gap ['\t'] ∧ Piece.Separated ps ∧ (∀ p ∈ ps, p.Apart) ∧
      utf8Len ('\t' :: Piece.joined ps) < UInt32.size ∧
      TokenStream.ofText (String.ofList ('\t' :: Piece.joined ps)) =
        ⟨[.ok ⟨.slash, "/", ⟨1, 1⟩⟩, .ok ⟨.string, "é\"\n", ⟨7, 7⟩⟩, .ok ⟨.ident, "let1", ⟨15, 4⟩⟩],
          ⟨19, 0⟩⟩ := by
  intro ps
  have hgap : Gap ['\t'] := .blank rfl .nil
  have hline : Gap (' ' :: ('/' :: '/' :: ['c'] ++ '\n' :: [])) :=
    .blank rfl (.comment (by decide) .nil)
  have hquotes : Quotes ['é', '\\', '"', '\n'] ['é', '"', '\n'] :=
    .plain (by decide) (by decide) (.escaped rfl (.plain (by decide) (by decide) .nil))
  have hname : (Word.ident "let1").Written ['l', 'e', 't', '1'] :=
    .ident (c := 'l') rfl (List.all_eq_true.mp rfl) rfl
  have hps : Piece.Separated ps :=
    .cons (.mark (k := .slash) rfl) hline (fun _ => List.cons_ne_nil _ _) <|
    .cons (.string hquotes) (.blank rfl .nil) (fun _ => List.cons_ne_nil _ _) <|
    .cons hname .nil (absurd rfl) .nil
  have hapart : ∀ p ∈ ps, p.Apart := by
    simp only [ps, List.forall_mem_cons]
    exact ⟨fun _ => by decide, nofun, nofun, nofun⟩
  have hlength : utf8Len ('\t' :: Piece.joined ps) = 19 := by decide
  have hsize : utf8Len ('\t' :: Piece.joined ps) < UInt32.size := by
    rw [hlength]
    decide
  have htokens : Piece.tokens (utf8Len ['\t']) ps = [⟨.slash, "/", ⟨1, 1⟩⟩,
      ⟨.string, "é\"\n", ⟨7, 7⟩⟩, ⟨.ident, "let1", ⟨15, 4⟩⟩] := by decide
  have hread := ofText_joined hgap hps hapart hsize
  rw [htokens, List.singleton_append, hlength] at hread
  exact ⟨hgap, hps, hapart, hsize, hread⟩

/-- A comment right behind a slash takes it in: of `/`, the comment `//` and `x` the reader finds
nothing but `x`. -/
theorem ofText_joined_slash_lost :
    let ps : List Piece := [⟨.mark .slash, ['/'], ['/', '/', '\n']⟩, ⟨.ident "x", ['x'], []⟩]
    Piece.Separated ps ∧ utf8Len (Piece.joined ps) < UInt32.size ∧
      TokenStream.ofText (String.ofList (Piece.joined ps)) ≠
        ⟨(Piece.tokens 0 ps).map .ok, ⟨.ofNat (utf8Len (Piece.joined ps)), 0⟩⟩ := by
  intro ps
  have hname : (Word.ident "x").Written ['x'] := .ident (c := 'x') rfl nofun rfl
  have hcomment : Gap ('/' :: '/' :: [] ++ '\n' :: []) := .comment (by decide) .nil
  have hps : Piece.Separated ps :=
    .cons (.mark (k := .slash) rfl) hcomment (fun _ => List.cons_ne_nil _ _)
      (.cons hname .nil (absurd rfl) .nil)
  have hlength : (scan (String.ofList (Piece.joined ps))).length = 1 := by decide
  refine ⟨hps, by decide, fun h => ?_⟩
  rw [show scan _ = _ from congrArg TokenStream.items h] at hlength
  cases hlength

end Monkey
