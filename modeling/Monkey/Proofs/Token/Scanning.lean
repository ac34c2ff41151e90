import Mathlib.Data.String.Basic
import Monkey.Proofs.Token.Spelling

/-!
# What spells words is cut into them

The reader of a text is followed over the text of one word, which it may still be in when that text
ends, and over gaps. A character that does not go on with the item at hand is read as if that item
had been completed before.
-/

namespace Monkey

namespace Scan

open String (utf8Len)
open Text (isBlank)

variable {s : Scan} {m r : Mode} {c : Char} {cs : List Char} {pos : Nat} {items : Array Item}
  {item : Option Item}

/-! ## One character -/

@[simp] theorem item_gap : Mode.gap.item? pos = none := rfl

@[simp] theorem extend_gap : Mode.gap.extend? pos c = none := rfl

@[simp] theorem finish_gap : finish ⟨pos, .gap, items⟩ = items.toList := by
  simp [finish]

theorem feed_extend (h : m.extend? pos c = some (none, r)) :
    feed ⟨pos, m, items⟩ c = ⟨pos + c.utf8Size, r, items⟩ := by
  simp [feed, Mode.step, h]

theorem feed_complete {i : Item} (h : m.extend? pos c = some (some i, r)) :
    feed ⟨pos, m, items⟩ c = ⟨pos + c.utf8Size, r, items.push i⟩ := by
  simp [feed, Mode.step, h]

theorem feed_begin (h : begin pos c = (none, r)) :
    feed ⟨pos, .gap, items⟩ c = ⟨pos + c.utf8Size, r, items⟩ := by
  simp [feed, Mode.step, h]

theorem feed_single {i : Item} (h : begin pos c = (some i, r)) :
    feed ⟨pos, .gap, items⟩ c = ⟨pos + c.utf8Size, r, items.push i⟩ := by
  simp [feed, Mode.step, h]

/-- A character that does not extend the item at hand completes it. -/
theorem feed_of_not_extend (h : s.mode.extend? s.pos c = none) :
    s.feed c = feed ⟨s.pos, .gap, s.finish.toArray⟩ c := by
  simp only [feed, Mode.step, h, extend_gap, item_gap, Option.toList_none, List.nil_append]
  congr 1
  exact Array.toList_inj.mp (by simp [finish])

/-! ## First characters -/

/-- The characters that a mark or a string begins with. -/
def marks : List Char :=
  ['(', ')', '\x7b', '\x7d', '[', ']', ',', ';', ':', '+', '-', '*', '=', '!', '<', '>', '/', '"']

theorem begin_of_not_mark (h : c ∉ marks) : begin pos c =
    if c.isDigit then (none, .digits pos [c])
    else if isWordStart c then (none, .word pos [c])
    else if isBlank c then (none, .gap)
    else (some (error (.unrecognized c) pos (pos + c.utf8Size)), .gap) := by
  have hsingle : single? c = none := by
    unfold single?
    split <;> first | rfl | exact absurd (by decide) h
  have hhalf : half? c = none := by
    unfold half?
    split <;> first | rfl | exact absurd (by decide) h
  have hslash : c ≠ '/' := by rintro rfl; exact absurd (by decide) h
  have hquote : c ≠ '"' := by rintro rfl; exact absurd (by decide) h
  simp [begin, hsingle, hhalf, hslash, hquote]

theorem not_mark_of {p : Char → Bool} (h : p c) (hp : marks.any p = false) : c ∉ marks :=
  fun hc => List.any_eq_false.mp hp c hc h

theorem begin_of_isDigit (h : c.isDigit) : begin pos c = (none, .digits pos [c]) := by
  rw [begin_of_not_mark (not_mark_of h rfl), if_pos h]

theorem toNat_of_isWordStart (h : isWordStart c) :
    65 ≤ c.toNat ∧ c.toNat ≤ 90 ∨ c.toNat = 95 ∨ 97 ≤ c.toNat ∧ c.toNat ≤ 122 := by
  change (decide ('A'.val ≤ c.val ∧ c.val ≤ 'Z'.val) || (decide ('a'.val ≤ c.val) &&
    decide (c.val ≤ 'z'.val)) || decide (c = '_')) = true at h
  simp only [UInt32.le_iff_toNat_le, Bool.or_eq_true, Bool.and_eq_true, decide_eq_true_eq] at h
  rcases h with (h | h) | rfl
  · exact .inl h
  · exact .inr (.inr h)
  · exact .inr (.inl rfl)

theorem toNat_of_isBlank (h : isBlank c) : c.toNat ≤ 32 ∨ 133 ≤ c.toNat := by
  simp only [isBlank, Bool.or_eq_true, Bool.and_eq_true, decide_eq_true_eq, beq_iff_eq] at h
  omega

theorem toNat_of_isDigit (h : c.isDigit) : 48 ≤ c.toNat ∧ c.toNat ≤ 57 :=
  Char.isDigit_iff_toNat.mp h

theorem begin_of_isWordStart (h : isWordStart c) : begin pos c = (none, .word pos [c]) := by
  have hdigit : ¬c.isDigit := by
    intro hd
    have hd := toNat_of_isDigit hd
    have hs := toNat_of_isWordStart h
    omega
  rw [begin_of_not_mark (not_mark_of h rfl), if_neg hdigit, if_pos h]

theorem begin_of_isBlank (h : isBlank c) : begin pos c = (none, .gap) := by
  have hb := toNat_of_isBlank h
  have hdigit : ¬c.isDigit := by
    intro hd
    have hd := toNat_of_isDigit hd
    omega
  have hstart : ¬isWordStart c := by
    intro hs
    have hs := toNat_of_isWordStart hs
    omega
  rw [begin_of_not_mark (not_mark_of h rfl), if_neg hdigit, if_neg hstart, if_pos h]

/-! ## Words -/

theorem utf8Len_cons_add (pos : Nat) (c : Char) (cs : List Char) :
    pos + utf8Len (c :: cs) = pos + c.utf8Size + utf8Len cs := by
  rw [String.utf8Len_cons, Nat.add_comm (utf8Len cs), Nat.add_assoc]

theorem utf8Len_append_add (pos : Nat) (cs ds : List Char) :
    pos + utf8Len (cs ++ ds) = pos + utf8Len cs + utf8Len ds := by
  rw [String.utf8Len_append, Nat.add_assoc]

/-- Characters that all extend a mode in the same way. -/
theorem foldl_extend {p : Char → Prop} {f : List Char → Mode}
    (hf : ∀ {pos c cs}, p c → (f cs).extend? pos c = some (none, f (c :: cs))) {ds : List Char}
    (h : ∀ d ∈ ds, p d) (pos : Nat) (cs : List Char) (items : Array Item) :
    ds.foldl feed ⟨pos, f cs, items⟩ = ⟨pos + utf8Len ds, f (ds.reverse ++ cs), items⟩ := by
  induction ds generalizing pos cs with
  | nil => rfl
  | cons d ds ih =>
      obtain ⟨hd, hds⟩ := List.forall_mem_cons.mp h
      rw [List.foldl_cons, feed_extend (hf hd), ih hds, utf8Len_cons_add]
      simp

/-- The reader has read these items and has come this far. It may still be in the last item, which
only characters that `joins` says go on with. -/
structure Past (s : Scan) (stop : Nat) (is : List Item) (joins : Char → Bool) : Prop where
  pos : s.pos = stop
  finish : s.finish = is
  ended : ∀ c, ¬joins c → s.mode.extend? s.pos c = none

/-- A text that does not go on with the last item is read as if that item had been completed. -/
theorem Past.finish_foldl {stop : Nat} {is : List Item} {joins : Char → Bool}
    (h : Past s stop is joins) (hcs : ∀ c ∈ cs.head?, ¬joins c) :
    (cs.foldl feed s).finish = (cs.foldl feed ⟨stop, .gap, is.toArray⟩).finish := by
  cases cs with
  | nil => simp [h.finish]
  | cons c cs =>
      rw [List.foldl_cons, List.foldl_cons, feed_of_not_extend (h.ended c (hcs c rfl)), h.pos,
        h.finish]

theorem past_word (hc : isWordStart c) (hcs : ∀ d ∈ cs, isWordChar d) :
    Past ((c :: cs).foldl feed ⟨pos, .gap, items⟩) (pos + utf8Len (c :: cs))
      (items.toList ++ [token (.ofWord (String.ofList (c :: cs))) (c :: cs) pos
        (pos + utf8Len (c :: cs))]) isWordChar := by
  have hrun := foldl_extend (p := (isWordChar ·)) (f := .word pos) (fun h => if_pos h) hcs
    (pos + c.utf8Size) [c] items
  rw [List.foldl_cons, feed_begin (begin_of_isWordStart hc), hrun, utf8Len_cons_add]
  exact ⟨rfl, by simp [finish, Mode.item?], fun d hd => if_neg hd⟩

theorem past_digits (h : ∀ d ∈ c :: cs, d.isDigit) :
    Past ((c :: cs).foldl feed ⟨pos, .gap, items⟩) (pos + utf8Len (c :: cs))
      (items.toList ++ [token .integer (c :: cs) pos (pos + utf8Len (c :: cs))]) Char.isDigit := by
  obtain ⟨hc, hcs⟩ := List.forall_mem_cons.mp h
  have hrun := foldl_extend (p := (·.isDigit)) (f := .digits pos) (fun h => if_pos h) hcs
    (pos + c.utf8Size) [c] items
  rw [List.foldl_cons, feed_begin (begin_of_isDigit hc), hrun, utf8Len_cons_add]
  exact ⟨rfl, by simp [finish, Mode.item?], fun d hd => if_neg hd⟩

theorem foldl_body {vs : List Char} {bad : Option Char} (h : Body cs vs bad) (start pos : Nat)
    (acc : List Char) (b : Option Char) (items : Array Item) :
    cs.foldl feed ⟨pos, .quoted start acc b, items⟩ =
      ⟨pos + utf8Len cs, .quoted start (vs.reverse ++ acc) (b <|> bad), items⟩ := by
  induction h generalizing pos acc b with
  | nil => simp
  | @plain c cs vs bad hquote hslash _ ih =>
      have hextend : (Mode.quoted start acc b).extend? pos c =
          some (none, .quoted start (c :: acc) b) := by
        simp [Mode.extend?, hquote, hslash]
      rw [List.foldl_cons, feed_extend hextend, ih, utf8Len_cons_add]
      simp
  | @escaped c d cs vs bad hd _ ih =>
      have hextend : (Mode.escape start acc b).extend? (pos + '\\'.utf8Size) c =
          some (none, .quoted start (d :: acc) b) := by
        simp [Mode.extend?, hd]
      rw [List.foldl_cons, feed_extend (r := .escape start acc b) rfl, List.foldl_cons,
        feed_extend hextend, ih, utf8Len_cons_add, utf8Len_cons_add]
      simp
  | @unknown c cs vs bad hc _ ih =>
      have hextend : (Mode.escape start acc b).extend? (pos + '\\'.utf8Size) c =
          some (none, .quoted start acc (b <|> some c)) := by
        simp [Mode.extend?, hc]
      rw [List.foldl_cons, feed_extend (r := .escape start acc b) rfl, List.foldl_cons,
        feed_extend hextend, ih, utf8Len_cons_add, utf8Len_cons_add]
      cases b <;> rfl

/-- A string up to its closing quote. -/
theorem foldl_quote {vs : List Char} {bad : Option Char} (h : Body cs vs bad) :
    ('"' :: cs).foldl feed ⟨pos, .gap, items⟩ =
      ⟨pos + utf8Len ('"' :: cs), .quoted pos vs.reverse bad, items⟩ := by
  have hbegin : begin pos '"' = (none, .quoted pos [] none) := rfl
  rw [List.foldl_cons, feed_begin hbegin, foldl_body h, utf8Len_cons_add]
  simp

theorem past_closed {vs : List Char} {bad : Option Char} {i : Item} (h : Body cs vs bad)
    (hend : (Mode.quoted pos vs.reverse bad).extend? (pos + utf8Len ('"' :: cs)) '"' =
      some (some i, .gap)) :
    Past (('"' :: cs ++ ['"']).foldl feed ⟨pos, .gap, items⟩) (pos + utf8Len ('"' :: cs ++ ['"']))
      (items.toList ++ [i]) (fun _ => false) := by
  rw [List.foldl_append, foldl_quote h, List.foldl_cons, List.foldl_nil, feed_complete hend]
  exact ⟨by simp [Nat.add_assoc], by simp [finish], fun _ _ => rfl⟩

theorem past_string {vs : List Char} (h : Quotes cs vs) :
    Past (('"' :: cs ++ ['"']).foldl feed ⟨pos, .gap, items⟩) (pos + utf8Len ('"' :: cs ++ ['"']))
      (items.toList ++ [token .string vs pos (pos + utf8Len ('"' :: cs ++ ['"']))])
      (fun _ => false) := by
  refine past_closed h.body ?_
  simp [Mode.extend?, Nat.add_assoc]

theorem past_unknownEscape {vs : List Char} {b : Char} (h : Body cs vs (some b)) :
    Past (('"' :: cs ++ ['"']).foldl feed ⟨pos, .gap, items⟩) (pos + utf8Len ('"' :: cs ++ ['"']))
      (items.toList ++ [error (.unknownEscape b) pos (pos + utf8Len ('"' :: cs ++ ['"']))])
      (fun _ => false) := by
  refine past_closed h ?_
  simp [Mode.extend?, Nat.add_assoc]

theorem past_unclosed {vs tail : List Char} {bad : Option Char} (h : Body cs vs bad)
    (htail : tail = [] ∨ tail = ['\\']) :
    Past (('"' :: cs ++ tail).foldl feed ⟨pos, .gap, items⟩) (pos + utf8Len ('"' :: cs ++ tail))
      (items.toList ++ [error .unclosedString pos (pos + utf8Len ('"' :: cs ++ tail))])
      (fun _ => true) := by
  rw [List.foldl_append, foldl_quote h, utf8Len_append_add]
  rcases htail with rfl | rfl
  · exact ⟨rfl, by simp [finish, Mode.item?], fun _ hc => absurd rfl hc⟩
  · rw [List.foldl_cons, List.foldl_nil, feed_extend (r := .escape pos vs.reverse bad) rfl]
    exact ⟨by simp, by simp [finish, Mode.item?], fun _ hc => absurd rfl hc⟩
theorem past_single {k : Kind} (h : single? c = some k) :
    Past ([c].foldl feed ⟨pos, .gap, items⟩) (pos + utf8Len [c])
      (items.toList ++ [token k [c] pos (pos + utf8Len [c])]) (fun _ => false) := by
  rw [List.foldl_cons, feed_single (by rw [begin, h])]
  exact ⟨by simp, by simp [finish], fun _ _ => rfl⟩

theorem begin_of_half {k k' : Kind} (h : half? c = some (k, k')) :
    begin pos c = (none, .half pos c k k') := by
  have hsingle : single? c = none := by
    unfold half? at h
    split at h <;> first | rfl | cases h
  simp [begin, hsingle, h]

theorem past_half {k k' : Kind} (h : half? c = some (k, k')) :
    Past ([c].foldl feed ⟨pos, .gap, items⟩) (pos + utf8Len [c])
      (items.toList ++ [token k [c] pos (pos + utf8Len [c])]) (· = '=') := by
  rw [List.foldl_cons, feed_begin (begin_of_half h)]
  exact ⟨by simp, by simp [finish, Mode.item?], fun d hd => if_neg (by simpa using hd)⟩

theorem past_double {k k' : Kind} (h : half? c = some (k, k')) :
    Past ([c, '='].foldl feed ⟨pos, .gap, items⟩) (pos + utf8Len [c, '='])
      (items.toList ++ [token k' [c, '='] pos (pos + utf8Len [c, '='])]) (fun _ => false) := by
  have hend : (Mode.half pos c k k').extend? (pos + c.utf8Size) '=' =
      some (some (token k' [c, '='] pos (pos + c.utf8Size + '='.utf8Size)), .gap) := rfl
  rw [List.foldl_cons, feed_begin (begin_of_half h), List.foldl_cons, List.foldl_nil,
    feed_complete hend, utf8Len_cons_add, utf8Len_cons_add]
  exact ⟨rfl, by simp [finish], fun _ _ => rfl⟩

theorem past_slash : Past (['/'].foldl feed ⟨pos, .gap, items⟩) (pos + utf8Len ['/'])
    (items.toList ++ [token .slash ['/'] pos (pos + utf8Len ['/'])]) (· = '/') := by
  have hbegin : begin pos '/' = (none, .slash pos) := rfl
  rw [List.foldl_cons, feed_begin hbegin]
  exact ⟨by simp, by simp [finish, Mode.item?], fun d hd => if_neg (by simpa using hd)⟩

theorem past_mark {k : Kind} {text : String} (h : k.text? = some text) :
    Past (text.toList.foldl feed ⟨pos, .gap, items⟩) (pos + utf8Len text.toList)
      (items.toList ++ [token k text.toList pos (pos + utf8Len text.toList)])
      ((Word.mark k).joins ·) := by
  cases k <;> cases h
  case assign => exact past_half (c := '=') rfl
  case bang => exact past_half (c := '!') rfl
  case lessThan => exact past_half (c := '<') rfl
  case greaterThan => exact past_half (c := '>') rfl
  case equal => exact past_double (c := '=') rfl
  case notEqual => exact past_double (c := '!') rfl
  case lessEqual => exact past_double (c := '<') rfl
  case greaterEqual => exact past_double (c := '>') rfl
  case slash => exact past_slash
  case kwFn | kwLet | kwTrue | kwFalse | kwIf | kwElse | kwReturn =>
    exact past_word rfl (List.all_eq_true.mp rfl)
  all_goals exact past_single rfl

theorem past_written {w : Word} (h : w.Written cs) (pos : Nat) (items : Array Item) :
    ∃ t : Token, t.word = w ∧ (t.kind ≠ .string → t.lexeme = String.ofList cs) ∧
      t.span = .ofBytes pos (pos + utf8Len cs) ∧
      Past (cs.foldl feed ⟨pos, .gap, items⟩) (pos + utf8Len cs) (items.toList ++ [.ok t])
        (w.joins ·) := by
  cases h with
  | ident hc hcs hname =>
      refine ⟨_, Token.word_ident ?_, fun _ => rfl, rfl, past_word hc hcs⟩
      simp only [Kind.ofWord, hname, Option.getD_none]
  | integer hcs => exact ⟨_, Token.word_integer rfl, fun _ => rfl, rfl, past_digits hcs⟩
  | string hvs =>
      exact ⟨_, Token.word_string rfl, fun hne => absurd rfl hne, rfl, past_string hvs⟩
  | @mark k _ hk =>
      have hmark : k.isMark := by cases k <;> first | rfl | cases hk
      exact ⟨_, Token.word_mark rfl hmark, fun _ => rfl, rfl, past_mark hk⟩

/-! ## Gaps -/

theorem foldl_comment (h : '\n' ∉ cs) (pos : Nat) (items : Array Item) :
    ('/' :: '/' :: cs).foldl feed ⟨pos, .gap, items⟩ =
      ⟨pos + utf8Len ('/' :: '/' :: cs), .comment, items⟩ := by
  have hbegin : begin pos '/' = (none, .slash pos) := rfl
  have hrun := foldl_extend (p := (· ≠ '\n')) (f := fun _ => .comment)
    (fun h => by simp [Mode.extend?, h]) (fun c hc hn => h (hn ▸ hc))
    (pos + '/'.utf8Size + '/'.utf8Size) [] items
  rw [List.foldl_cons, feed_begin hbegin, List.foldl_cons, feed_extend (r := .comment) rfl, hrun,
    utf8Len_cons_add, utf8Len_cons_add]

theorem foldl_line (h : '\n' ∉ cs) (pos : Nat) (items : Array Item) :
    ('/' :: '/' :: cs ++ ['\n']).foldl feed ⟨pos, .gap, items⟩ =
      ⟨pos + utf8Len ('/' :: '/' :: cs ++ ['\n']), .gap, items⟩ := by
  rw [List.foldl_append, foldl_comment h, List.foldl_cons, List.foldl_nil,
    feed_extend (r := .gap) rfl, utf8Len_append_add]
  simp

theorem foldl_gap (h : Gap cs) (pos : Nat) (items : Array Item) :
    cs.foldl feed ⟨pos, .gap, items⟩ = ⟨pos + utf8Len cs, .gap, items⟩ := by
  induction h generalizing pos with
  | nil => rfl
  | @blank c cs hc _ ih =>
      rw [List.foldl_cons, feed_begin (begin_of_isBlank hc), ih, utf8Len_cons_add]
  | @comment cs ds hcs _ ih =>
      rw [List.append_cons, List.foldl_append, foldl_line hcs, ih, utf8Len_append_add _ _ ds]

/-! ## Texts -/

theorem foldl_spells {ws : List Word} (h : Spells ws cs) (pos : Nat) (items : Array Item) :
    ∃ ts : List Token, ts.map Token.word = ws ∧
      (cs.foldl feed ⟨pos, .gap, items⟩).finish = items.toList ++ ts.map .ok := by
  induction h generalizing pos items with
  | nil hgap =>
      refine ⟨[], rfl, ?_⟩
      rw [foldl_gap hgap]
      simp [finish]
  | comment hgap hcs =>
      refine ⟨[], rfl, ?_⟩
      rw [List.foldl_append, foldl_gap hgap, foldl_comment hcs]
      simp [finish, Mode.item?]
  | @cons w ws gap cs rest hgap hw hjoin _ ih =>
      obtain ⟨t, ht, -, -, hpast⟩ := past_written hw (pos + utf8Len gap) items
      obtain ⟨ts, hts, hrest⟩ := ih (pos + utf8Len gap + utf8Len cs)
        (items.toList ++ [Except.ok t]).toArray
      refine ⟨t :: ts, by rw [List.map_cons, ht, hts], ?_⟩
      rw [List.foldl_append, List.foldl_append, foldl_gap hgap, hpast.finish_foldl hjoin, hrest]
      simp

end Scan

/-- A text that spells some words is cut into tokens of those words. -/
theorem scan_of_spells {text : String} {ws : List Word} (h : Spells ws text.toList) :
    ∃ ts : List Token, ts.map Token.word = ws ∧ scan text = ts.map .ok := by
  obtain ⟨ts, hts, hscan⟩ := Scan.foldl_spells h 0 #[]
  exact ⟨ts, hts, hscan⟩

end Monkey
