import Monkey.Proofs.Token.Scanning

/-!
# A text is covered by its items

The items of a text stand one after the other in it, each as long as it can be, and only white space
and comments stand around them. So no character is lost and none is read twice, whatever the text
is; and as each item takes at least one character, there are no more of them than characters.
-/

namespace Monkey

open String (utf8Len)
open Scan (isWordStart isWordChar unescape?)
open Text (isBlank)

/-! ## What items say -/

/-- What an item says, its place aside: a word, or why there is none. -/
abbrev Reading := Except LexicalCause Word

/-- The characters are a text that is read so. Of several wrong escapes in a literal the first one
counts; a literal that does not end may end in half an escape. -/
inductive Reading.Written : Reading → List Char → Prop
  | word {w cs} : w.Written cs → Written (.ok w) cs
  | unrecognized {c} : ¬isBlank c → (∀ w cs, ¬Word.Written w (c :: cs)) →
      Written (.error (.unrecognized c)) [c]
  | unknownEscape {b cs vs} : Body cs vs (some b) →
      Written (.error (.unknownEscape b)) ('"' :: cs ++ ['"'])
  | unclosed {cs vs bad tail} : Body cs vs bad → tail = [] ∨ tail = ['\\'] →
      Written (.error .unclosedString) ('"' :: cs ++ tail)

theorem Reading.Written.ne_nil {r : Reading} {cs : List Char} (h : r.Written cs) : cs ≠ [] := by
  cases h with
  | word hw => exact hw.ne_nil
  | unrecognized => exact List.cons_ne_nil _ _
  | unknownEscape => exact List.cons_ne_nil _ _
  | unclosed => exact List.cons_ne_nil _ _

/-- Whether a character right after it goes on with it. -/
def Reading.joins (c : Char) : Reading → Bool
  | .ok w => w.joins c
  | .error .unclosedString => true
  | .error _ => false

namespace Item

def reading : Item → Reading
  | .ok t => .ok t.word
  | .error e => .error e.cause

def span : Item → Span
  | .ok t => t.span
  | .error e => e.span

/-- The offset of the first byte. -/
def start (i : Item) : Nat :=
  i.span.start.toNat

/-- The offset just after the last byte. -/
def stop (i : Item) : Nat :=
  i.span.start.toNat + i.span.length.toNat

/-- The item is cut out of these characters. The lexeme of a string is what the string says, which
the reading tells; every other lexeme is the text itself. -/
structure CutFrom (i : Item) (cs : List Char) : Prop where
  written : i.reading.Written cs
  lexeme : ∀ t, i = .ok t → t.kind ≠ .string → t.lexeme = String.ofList cs

theorem CutFrom.of_error {e : LexicalError} {cs : List Char}
    (h : Reading.Written (.error e.cause) cs) : CutFrom (.error e) cs :=
  ⟨h, nofun⟩

end Item

/-! ## Coverings -/

/-- A text from an offset on, and the items in it. -/
inductive Covered : Nat → List Char → List Item → Prop
  | nil {pos} : Covered pos [] []
  | blank {pos c cs is} : isBlank c → Covered (pos + c.utf8Size) cs is → Covered pos (c :: cs) is
  | comment {pos cs rest is} : '\n' ∉ cs →
      Covered (pos + utf8Len ('/' :: '/' :: cs ++ ['\n'])) rest is →
      Covered pos ('/' :: '/' :: cs ++ ['\n'] ++ rest) is
  | lastComment {pos cs} : '\n' ∉ cs → Covered pos ('/' :: '/' :: cs) []
  /-- The item is as long as it can be: what comes right after it does not go on with it. -/
  | item {pos cs rest i is} : i.CutFrom cs → i.start = pos → i.stop = pos + utf8Len cs →
      (∀ c ∈ rest.head?, ¬i.reading.joins c) → Covered (pos + utf8Len cs) rest is →
      Covered pos (cs ++ rest) (i :: is)

namespace Covered

variable {pos : Nat} {cs : List Char} {i : Item} {is : List Item}

theorem length_le (h : Covered pos cs is) : is.length ≤ cs.length := by
  induction h with
  | nil => exact Nat.le_refl 0
  | blank _ _ ih => exact Nat.le_succ_of_le ih
  | comment _ _ ih =>
      rw [List.length_append]
      exact Nat.le_add_left_of_le ih
  | lastComment => exact Nat.zero_le _
  | item hi _ _ _ _ ih =>
      have hpos := List.length_pos_iff.mpr hi.written.ne_nil
      rw [List.length_append, List.length_cons]
      omega

/-- Where the items of a text stand in it. -/
theorem place_of_mem (h : Covered pos cs is) (hi : i ∈ is) :
    ∃ before ds after, cs = before ++ ds ++ after ∧ i.CutFrom ds ∧
      i.start = pos + utf8Len before ∧ i.stop = i.start + utf8Len ds := by
  induction h with
  | nil => cases hi
  | @blank pos c cs is _ _ ih =>
      obtain ⟨before, ds, after, rfl, hcut, hstart, hstop⟩ := ih hi
      refine ⟨c :: before, ds, after, rfl, hcut, ?_, hstop⟩
      rw [hstart, Scan.utf8Len_cons_add]
  | @comment pos cs rest is _ _ ih =>
      obtain ⟨before, ds, after, rfl, hcut, hstart, hstop⟩ := ih hi
      refine ⟨'/' :: '/' :: cs ++ ['\n'] ++ before, ds, after, by simp, hcut, ?_, hstop⟩
      rw [hstart, Scan.utf8Len_append_add _ _ before]
  | lastComment => cases hi
  | @item pos cs rest j is hcut hstart hstop _ _ ih =>
      rcases List.mem_cons.mp hi with rfl | hi
      · exact ⟨[], cs, rest, rfl, hcut, hstart, by rw [hstop, hstart]⟩
      · obtain ⟨before, ds, after, rfl, hcut, hstart, hstop⟩ := ih hi
        refine ⟨cs ++ before, ds, after, by simp, hcut, ?_, hstop⟩
        rw [hstart, Scan.utf8Len_append_add]

theorem pairwise (h : Covered pos cs is) : is.Pairwise (·.stop ≤ ·.start) := by
  induction h with
  | nil => exact .nil
  | blank _ _ ih => exact ih
  | comment _ _ ih => exact ih
  | lastComment => exact .nil
  | item _ _ hstop _ hrest ih =>
      refine .cons (fun j hj => ?_) ih
      obtain ⟨before, -, -, -, -, hstart, -⟩ := hrest.place_of_mem hj
      rw [hstop, hstart]
      exact Nat.le_add_right _ _

end Covered

/-! ## How a text begins -/

/-- A text begins with a character that means nothing, with a comment, or with an item. -/
inductive Begins : List Char → Prop
  | blank {c cs} : isBlank c → Begins (c :: cs)
  | comment {cs rest} : '\n' ∉ cs → Begins ('/' :: '/' :: cs ++ ['\n'] ++ rest)
  | lastComment {cs} : '\n' ∉ cs → Begins ('/' :: '/' :: cs)
  | item {r cs rest} : Reading.Written r cs → (∀ c ∈ rest.head?, ¬r.joins c) → Begins (cs ++ rest)

namespace Begins

variable {c : Char} {cs rest : List Char}

/-- A word in front of what does not go on with it. -/
theorem word {w : Word} (h : w.Written cs) (hrest : ∀ c ∈ rest.head?, ¬w.joins c) :
    Begins (cs ++ rest) :=
  .item (.word h) hrest

theorem mark {k : Kind} {text : String} (h : k.text? = some text)
    (hrest : ∀ c ∈ rest.head?, ¬(Word.mark k).joins c) : Begins (text.toList ++ rest) :=
  .word (.mark h) hrest

/-- A mark that nothing goes on with. -/
theorem alone {k : Kind} {text : String} (h : k.text? = some text)
    (hjoins : ∀ d, ¬(Word.mark k).joins d) : Begins (text.toList ++ rest) :=
  mark h fun d _ => hjoins d

/-- A mark that `=` goes on with, and the longer one. -/
theorem half {k l : Kind} {text text' : String} (h : k.text? = some text)
    (h' : l.text? = some text') (htext : text'.toList = text.toList ++ ['='])
    (hjoins : ∀ d, (Word.mark k).joins d = decide (d = '='))
    (hjoins' : ∀ d, ¬(Word.mark l).joins d) : Begins (text.toList ++ rest) := by
  by_cases hrest : ∀ d ∈ rest.head?, d ≠ '='
  · exact mark h fun d hd => by simpa [hjoins] using hrest d hd
  · obtain ⟨ds, rfl⟩ : ∃ ds, rest = '=' :: ds := by
      cases rest with
      | nil => exact absurd nofun hrest
      | cons d ds => simp_all
    rw [List.append_cons, ← htext]
    exact alone h' hjoins'

/-- The characters that are alike, and what comes after them. -/
theorem not_of_head_dropWhile {p : Char → Bool} : ∀ c ∈ (cs.dropWhile p).head?, ¬p c := by
  intro c hc
  have hnot := List.head?_dropWhile_not p cs
  rw [hc] at hnot
  simp [hnot]

theorem digits (h : c.isDigit) : Begins (c :: cs) := by
  have hwritten : Word.Written _ (c :: cs.takeWhile Char.isDigit) :=
    .integer (List.forall_mem_cons.mpr ⟨h, List.all_eq_true.mp List.all_takeWhile⟩)
  have hbegins : Begins (_ ++ cs.dropWhile Char.isDigit) := word hwritten not_of_head_dropWhile
  rwa [List.cons_append, List.takeWhile_append_dropWhile] at hbegins

theorem mark_of_keyword {k : Kind} {text : String} (h : Kind.keyword? text = some k) :
    k.text? = some text ∧ ∀ d, (Word.mark k).joins d = isWordChar d := by
  unfold Kind.keyword? at h
  repeat' split at h
  all_goals cases h
  all_goals subst_vars; exact ⟨rfl, fun _ => rfl⟩

theorem name (h : isWordStart c) : Begins (c :: cs) := by
  have hchars : ∀ d ∈ cs.takeWhile isWordChar, isWordChar d :=
    List.all_eq_true.mp List.all_takeWhile
  have hbegins : Begins ((c :: cs.takeWhile isWordChar) ++ cs.dropWhile isWordChar) := by
    cases hk : Kind.keyword? (String.ofList (c :: cs.takeWhile isWordChar)) with
    | none => exact word (.ident h hchars hk) not_of_head_dropWhile
    | some k =>
        obtain ⟨htext, hjoins⟩ := mark_of_keyword hk
        rw [← String.toList_ofList (l := c :: _)]
        exact mark htext fun d hd => by rw [hjoins]; exact not_of_head_dropWhile d hd
  rwa [List.cons_append, List.takeWhile_append_dropWhile] at hbegins

/-- What follows a quote goes up to another one or to the end. -/
theorem exists_body : ∀ cs : List Char, ∃ ds vs bad rest, Body ds vs bad ∧ cs = ds ++ rest ∧
    ((rest = [] ∨ rest = ['\\']) ∨ ∃ es, rest = '"' :: es)
  | [] => ⟨[], [], none, [], .nil, rfl, .inl (.inl rfl)⟩
  | c :: cs => by
      by_cases hquote : c = '"'
      · exact ⟨[], [], none, _, .nil, rfl, .inr ⟨cs, by rw [hquote]⟩⟩
      by_cases hslash : c = '\\'
      · subst hslash
        cases cs with
        | nil => exact ⟨[], [], none, _, .nil, rfl, .inl (.inr rfl)⟩
        | cons c cs =>
            obtain ⟨ds, vs, bad, rest, hbody, rfl, hrest⟩ := exists_body cs
            cases hc : unescape? c with
            | some d => exact ⟨'\\' :: c :: ds, d :: vs, bad, rest, .escaped hc hbody, rfl, hrest⟩
            | none => exact ⟨'\\' :: c :: ds, vs, some c, rest, .unknown hc hbody, rfl, hrest⟩
      · obtain ⟨ds, vs, bad, rest, hbody, rfl, hrest⟩ := exists_body cs
        exact ⟨c :: ds, c :: vs, bad, rest, .plain hquote hslash hbody, rfl, hrest⟩

theorem quote : Begins ('"' :: cs) := by
  obtain ⟨ds, vs, bad, rest, hbody, rfl, htail | ⟨es, rfl⟩⟩ := exists_body cs
  · have hbegins : Begins ('"' :: ds ++ rest ++ []) := item (.unclosed hbody htail) nofun
    rwa [List.append_nil] at hbegins
  · rw [← List.cons_append, List.append_cons]
    cases bad with
    | none => exact word (.string hbody.quotes) fun _ _ => Bool.false_ne_true
    | some b => exact item (.unknownEscape hbody) fun _ _ => Bool.false_ne_true

theorem slash : Begins ('/' :: cs) := by
  by_cases hrest : ∀ d ∈ cs.head?, d ≠ '/'
  · exact mark (k := .slash) rfl fun d hd => by simpa [Word.joins] using hrest d hd
  obtain ⟨ds, rfl⟩ : ∃ ds, cs = '/' :: ds := by
    cases cs with
    | nil => exact absurd nofun hrest
    | cons d ds => simp_all
  by_cases hline : '\n' ∈ ds
  · obtain ⟨ds, es, rfl, hds⟩ := List.eq_append_cons_of_mem hline
    rw [← List.cons_append, ← List.cons_append, List.append_cons]
    exact comment hds
  · exact lastComment hline

/-- What a word begins with. -/
theorem head_written {w : Word} (h : w.Written cs) :
    ∀ c ∈ cs.head?, c ∈ Scan.marks ∨ c.isDigit ∨ isWordStart c := by
  rintro c hc
  cases h with
  | ident hstart =>
      cases hc
      exact .inr (.inr hstart)
  | integer hdigits =>
      cases hc
      exact .inr (.inl (hdigits _ List.mem_cons_self))
  | string =>
      cases hc
      exact .inl (by decide)
  | @mark k _ hk => cases k <;> cases hk <;> cases hc <;> decide

theorem stray (hmark : c ∉ Scan.marks) (hdigit : ¬c.isDigit) (hstart : ¬isWordStart c)
    (hblank : ¬isBlank c) : Begins (c :: cs) := by
  change Begins ([c] ++ cs)
  refine item (.unrecognized hblank fun w ds hw => ?_) fun _ _ => Bool.false_ne_true
  rcases head_written hw c rfl with h | h | h
  · exact hmark h
  · exact hdigit h
  · exact hstart h

theorem of_mark : ∀ c ∈ Scan.marks, Begins (c :: cs) := by
  simp only [Scan.marks, List.forall_mem_cons]
  exact ⟨alone (k := .leftParen) rfl nofun, alone (k := .rightParen) rfl nofun,
    alone (k := .leftBrace) rfl nofun, alone (k := .rightBrace) rfl nofun,
    alone (k := .leftBracket) rfl nofun, alone (k := .rightBracket) rfl nofun,
    alone (k := .comma) rfl nofun, alone (k := .semicolon) rfl nofun,
    alone (k := .colon) rfl nofun, alone (k := .plus) rfl nofun,
    alone (k := .minus) rfl nofun, alone (k := .asterisk) rfl nofun,
    half (k := .assign) (l := .equal) rfl rfl rfl (fun _ => rfl) nofun,
    half (k := .bang) (l := .notEqual) rfl rfl rfl (fun _ => rfl) nofun,
    half (k := .lessThan) (l := .lessEqual) rfl rfl rfl (fun _ => rfl) nofun,
    half (k := .greaterThan) (l := .greaterEqual) rfl rfl rfl (fun _ => rfl) nofun,
    slash, quote, nofun⟩

end Begins

theorem begins (c : Char) (cs : List Char) : Begins (c :: cs) := by
  by_cases hmark : c ∈ Scan.marks
  · exact .of_mark c hmark
  by_cases hdigit : c.isDigit
  · exact .digits hdigit
  by_cases hstart : isWordStart c
  · exact .name hstart
  by_cases hblank : isBlank c
  · exact .blank hblank
  · exact .stray hmark hdigit hstart hblank

theorem begins_of_ne_nil {text : List Char} (h : text ≠ []) : Begins text := by
  obtain ⟨c, cs, rfl⟩ := List.exists_cons_of_ne_nil h
  exact begins c cs

/-- A mark, a quote, a digit or a letter begins some word. -/
theorem exists_written {c : Char} (h : c ∈ Scan.marks ∨ c.isDigit ∨ isWordStart c) :
    ∃ w cs, Word.Written w (c :: cs) := by
  have hmarks : Scan.marks.all fun c =>
      c = '"' || Kind.all.any fun k => k.text? = some (String.ofList [c]) := by decide
  have hmark {k : Kind} (hk : k.text? = some (String.ofList [c])) : Word.Written (.mark k) [c] := by
    simpa using Word.Written.mark hk
  rcases h with h | h | h
  · have hc := List.all_eq_true.mp hmarks c h
    simp only [Bool.or_eq_true, decide_eq_true_eq, List.any_eq_true] at hc
    rcases hc with rfl | ⟨k, -, hk⟩
    · exact ⟨_, _, .string .nil⟩
    · exact ⟨_, _, hmark hk⟩
  · exact ⟨_, _, .integer (List.forall_mem_singleton.mpr h)⟩
  · cases hk : Kind.keyword? (String.ofList [c]) with
    | none => exact ⟨_, _, .ident h (List.forall_mem_nil _) hk⟩
    | some k => exact ⟨_, _, hmark (Begins.mark_of_keyword hk).1⟩

/-! ## The reader covers the text -/

namespace Scan

theorem past_reading {r : Reading} {cs : List Char} (h : r.Written cs) (pos : Nat)
    (items : Array Item) :
    ∃ i : Item, i.reading = r ∧ i.CutFrom cs ∧ i.span = .ofBytes pos (pos + utf8Len cs) ∧
      Past (cs.foldl feed ⟨pos, .gap, items⟩) (pos + utf8Len cs) (items.toList ++ [i])
        (r.joins ·) := by
  cases h with
  | word hw =>
      obtain ⟨t, rfl, hlexeme, hspan, hpast⟩ := past_written hw pos items
      exact ⟨.ok t, rfl, ⟨.word hw, fun _ h => Except.ok.inj h ▸ hlexeme⟩, hspan, hpast⟩
  | @unrecognized c hblank hnone =>
      have hnot (h : c ∈ marks ∨ c.isDigit ∨ isWordStart c) : False := by
        obtain ⟨w, cs, hw⟩ := exists_written h
        exact hnone w cs hw
      have hbegin : begin pos c =
          (some (error (.unrecognized c) pos (pos + c.utf8Size)), .gap) := by
        rw [begin_of_not_mark (hnot <| .inl ·), if_neg (hnot <| .inr <| .inl ·),
          if_neg (hnot <| .inr <| .inr ·), if_neg hblank]
      refine ⟨error (.unrecognized c) pos _, rfl, .of_error (.unrecognized hblank hnone), rfl, ?_⟩
      rw [List.foldl_cons, feed_single hbegin]
      exact ⟨by simp, by simp [finish], fun _ _ => rfl⟩
  | @unknownEscape b _ _ hbody =>
      exact ⟨error (.unknownEscape b) pos _, rfl, .of_error (.unknownEscape hbody), rfl,
        past_unknownEscape hbody⟩
  | unclosed hbody htail =>
      exact ⟨error .unclosedString pos _, rfl, .of_error (.unclosed hbody htail), rfl,
        past_unclosed hbody htail⟩

theorem foldl_covered (text : List Char) (pos : Nat) (items : Array Item)
    (hsize : pos + utf8Len text < UInt32.size) :
    ∃ is, Covered pos text is ∧
      (text.foldl feed ⟨pos, .gap, items⟩).finish = items.toList ++ is := by
  induction hn : text.length using Nat.strongRecOn generalizing text pos items with
  | ind n ih =>
  subst hn
  by_cases hnil : text = []
  · subst hnil
    exact ⟨[], .nil, by simp⟩
  cases begins_of_ne_nil hnil with
  | @blank c cs hc =>
      rw [utf8Len_cons_add] at hsize
      obtain ⟨is, hcovered, hrun⟩ := ih _ (Nat.lt_succ_self _) cs _ items hsize rfl
      refine ⟨is, .blank hc hcovered, ?_⟩
      rw [List.foldl_cons, feed_begin (begin_of_isBlank hc), hrun]
  | @comment cs rest hcs =>
      rw [utf8Len_append_add] at hsize
      obtain ⟨is, hcovered, hrun⟩ := ih _ (by simp; omega) rest _ items hsize rfl
      refine ⟨is, .comment hcs hcovered, ?_⟩
      rw [List.foldl_append, foldl_line hcs, hrun]
  | lastComment hcs =>
      refine ⟨[], .lastComment hcs, ?_⟩
      rw [foldl_comment hcs]
      simp [finish, Mode.item?]
  | @item r cs rest hr hrest =>
      rw [utf8Len_append_add] at hsize
      obtain ⟨i, rfl, hcut, hspan, hpast⟩ := past_reading hr pos items
      have hlt : rest.length < (cs ++ rest).length := by
        have hlen := List.length_pos_iff.mpr hr.ne_nil
        rw [List.length_append]
        omega
      obtain ⟨is, hcovered, hrun⟩ := ih _ hlt rest _ (items.toList ++ [i]).toArray hsize rfl
      have hstart : i.start = pos := by
        rw [Item.start, hspan, Span.toNat_ofBytes_start _ (by omega)]
      have hlength : i.span.length.toNat = utf8Len cs := by
        rw [hspan, Span.toNat_ofBytes_length (by omega) (by omega), Nat.add_sub_cancel_left]
      have hstop : i.stop = pos + utf8Len cs := by
        rw [Item.stop, ← Item.start, hstart, hlength]
      refine ⟨i :: is, .item hcut hstart hstop hrest hcovered, ?_⟩
      rw [List.foldl_append, hpast.finish_foldl hrest, hrun]
      simp

end Scan

theorem scan_covered {text : String} (h : text.utf8ByteSize < UInt32.size) :
    Covered 0 text.toList (scan text) := by
  have hsize : 0 + utf8Len text.toList < UInt32.size := by
    rwa [Nat.zero_add, ← String.utf8ByteSize_ofList, String.ofList_toList]
  obtain ⟨is, hcovered, hrun⟩ := Scan.foldl_covered text.toList 0 #[] hsize
  rw [scan, Scan.start, hrun]
  exact hcovered

/-! ## The stream of a text -/

/-- The text that a span covers. -/
def Span.textIn (text : String) (s : Span) : String :=
  String.Pos.Raw.extract text ⟨s.start.toNat⟩ ⟨s.start.toNat + s.length.toNat⟩

/-- The span covers some characters of the text, and each of them as a whole. -/
structure Span.Within (text : String) (s : Span) : Prop where
  nonempty : 0 < s.length.toNat
  start : (⟨s.start.toNat⟩ : String.Pos.Raw).IsValid text
  stop : (⟨s.start.toNat + s.length.toNat⟩ : String.Pos.Raw).IsValid text

theorem Span.textIn_of_append {text : String} {s : Span} {before cs after : List Char}
    (htext : text.toList = before ++ cs ++ after) (hstart : s.start.toNat = utf8Len before)
    (hlength : s.length.toNat = utf8Len cs) : s.textIn text = String.ofList cs := by
  have hsplit : text = String.ofList (before ++ cs ++ after) := by
    rw [← htext, String.ofList_toList]
  rw [textIn, hstart, hlength, hsplit]
  exact String.extract_of_valid before cs after

theorem Item.textIn_of_append {text : String} {i : Item} {before cs after : List Char}
    (htext : text.toList = before ++ cs ++ after) (hcs : cs ≠ [])
    (hstart : i.start = utf8Len before) (hstop : i.stop = i.start + utf8Len cs) :
    i.span.Within text ∧ i.span.textIn text = String.ofList cs := by
  have hlength : i.span.length.toNat = utf8Len cs := Nat.add_left_cancel hstop
  have hsplit : text = String.ofList (before ++ cs ++ after) := by
    rw [← htext, String.ofList_toList]
  change i.span.start.toNat = utf8Len before at hstart
  refine ⟨⟨?_, ?_, ?_⟩, ?_⟩
  · rw [hlength]
    exact Nat.pos_of_ne_zero (mt String.utf8Len_eq_zero.mp hcs)
  · refine String.Pos.Raw.isValid_iff_exists_append.mpr
      ⟨String.ofList before, String.ofList (cs ++ after), ?_, ?_⟩
    · rw [hsplit, ← String.ofList_append, List.append_assoc]
    · rw [hstart, String.rawEndPos_ofList]
  · refine String.Pos.Raw.isValid_iff_exists_append.mpr
      ⟨String.ofList (before ++ cs), String.ofList after, ?_, ?_⟩
    · rw [hsplit, ← String.ofList_append]
    · rw [hstart, hlength, String.rawEndPos_ofList, String.utf8Len_append]
  · exact Span.textIn_of_append htext hstart hlength

/-- Lists that agree at all places, with one element behind their ends, are equal if it is not in
either of them. -/
theorem eq_of_getD_eq {α : Type} {a : α} {l m : List α} (hl : a ∉ l) (hm : a ∉ m)
    (h : ∀ k, l.getD k a = m.getD k a) : l = m := by
  induction l generalizing m with
  | nil =>
      cases m with
      | nil => rfl
      | cons y m =>
          obtain rfl : a = y := h 0
          exact absurd List.mem_cons_self hm
  | cons x l ih =>
      cases m with
      | nil =>
          obtain rfl : x = a := h 0
          exact absurd List.mem_cons_self hl
      | cons y m =>
          obtain rfl : x = y := h 0
          have htail := fun k => h (k + 1)
          rw [ih (mt (List.mem_cons_of_mem x) hl) (mt (List.mem_cons_of_mem x) hm) htail]

/-- The calls for the items of a text are answered by no more items than it has characters, and then
by its end for ever. Each item is cut out of the characters at its span; the items follow one
another without overlap, with only white space and comments around them, and no character that would
go on with an item comes right after it. -/
theorem ofText_covered {text : String} (h : text.utf8ByteSize < UInt32.size) :
    ∃ items : List Item, items.length ≤ text.length ∧
      (∀ k, (TokenStream.ofText text).answer k =
        items.getD k (.ok (.eof ⟨.ofNat text.utf8ByteSize, 0⟩))) ∧
      (∀ i ∈ items, i.span.Within text ∧ i.CutFrom (i.span.textIn text).toList) ∧
      items.Pairwise (·.stop ≤ ·.start) ∧ Covered 0 text.toList items := by
  have hcovered := scan_covered h
  refine ⟨scan text, ?_, fun k => ?_, fun i hi => ?_, hcovered.pairwise, hcovered⟩
  · rw [← String.length_toList]
    exact hcovered.length_le
  · rw [TokenStream.answer_eq, ← Span.ofBytes_self]
    rfl
  · obtain ⟨before, cs, after, htext, hcut, hstart, hstop⟩ := hcovered.place_of_mem hi
    rw [Nat.zero_add] at hstart
    obtain ⟨hwithin, hin⟩ := Item.textIn_of_append htext hcut.written.ne_nil hstart hstop
    rw [hin, String.toList_ofList]
    exact ⟨hwithin, hcut⟩

/-- A character of two bytes that begins no token, a token of two characters, and a string with an
escape in it, one right behind the other. -/
theorem ofText_covered_beyond_ascii :
    "é<=\"\\n\"".utf8ByteSize < UInt32.size ∧ ∃ items : List Item, items.length ≤ 7 ∧
      items = [.error ⟨.unrecognized 'é', ⟨0, 2⟩⟩, .ok ⟨.lessEqual, "<=", ⟨2, 2⟩⟩,
        .ok ⟨.string, "\n", ⟨4, 4⟩⟩] ∧
      (∀ k, (TokenStream.ofText "é<=\"\\n\"").answer k =
        items.getD k (.ok (.eof ⟨8, 0⟩))) ∧
      Covered 0 ['é', '<', '=', '"', '\\', 'n', '"'] items := by
  have hsize : "é<=\"\\n\"".utf8ByteSize < UInt32.size := by decide
  obtain ⟨items, hlength, hanswer, hwithin, -, hcovered⟩ := ofText_covered hsize
  have hscan : (TokenStream.ofText "é<=\"\\n\"").items =
      [.error ⟨.unrecognized 'é', ⟨0, 2⟩⟩, .ok ⟨.lessEqual, "<=", ⟨2, 2⟩⟩,
        .ok ⟨.string, "\n", ⟨4, 4⟩⟩] := by decide +kernel
  refine ⟨hsize, items, hlength,
    eq_of_getD_eq (a := .ok (.eof ⟨8, 0⟩)) ?_ (by decide) fun k => ?_, hanswer, hcovered⟩
  · exact fun hmem => Nat.lt_irrefl 0 (hwithin _ hmem).1.nonempty
  · refine (hanswer k).symm.trans ?_
    rw [TokenStream.answer_eq, hscan]
    rfl

end Monkey
