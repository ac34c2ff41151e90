import Monkey.Proofs.Text.Quoted

/-!
# Nested lists as text

A nested list is written in parentheses with blanks between its items; an item is a word, a quoted
text, or a list again. As long as no word has a character in it that ends words, the text shows how
the list is built.
-/

namespace Monkey

inductive Nested where
  | word (text : String)
  | quoted (text : String)
  | list (items : List Nested)

namespace Nested

/-! ## Texts -/

mutual
def text : Nested → List Char
  | word t => t.toList
  | quoted t => (Text.quoteString t).toList
  | list items => '(' :: texts ' ' items ++ [')']

/-- The items with a character between them. -/
def texts (separator : Char) : List Nested → List Char
  | [] => []
  | x :: xs => x.text ++ tails separator xs

/-- The items with a character in front of each. -/
def tails (separator : Char) : List Nested → List Char
  | [] => []
  | x :: xs => separator :: x.text ++ tails separator xs
end

/-- Whether the character may be part of a word. -/
def isOrdinary (c : Char) : Bool :=
  c ∉ [' ', '\n', '(', ')', '"']

/-- Whether the text can be told from what stands around it. -/
def isWord (text : String) : Bool :=
  !text.toList.isEmpty && text.toList.all isOrdinary

theorem isWord_iff {t : String} : isWord t ↔ t.toList ≠ [] ∧ ∀ c ∈ t.toList, isOrdinary c := by
  simp [isWord]

mutual
/-- What stands for words in it are words. -/
def Proper : Nested → Prop
  | word t => isWord t
  | quoted _ => True
  | list items => ProperAll items

def ProperAll : List Nested → Prop
  | [] => True
  | x :: xs => x.Proper ∧ ProperAll xs
end

theorem properAll_iff (xs : List Nested) : ProperAll xs ↔ ∀ x ∈ xs, x.Proper := by
  induction xs with
  | nil => simp [ProperAll]
  | cons x xs ih => simp [ProperAll, ih]

theorem isOrdinary_of {p : Char → Bool} {c : Char} (h : p c)
    (hp : [' ', '\n', '(', ')', '"'].any p = false) : isOrdinary c :=
  decide_eq_true fun hc => List.any_eq_false.mp hp c hc h

theorem isWord_of {p : Char → Bool} {t : String} (hne : t.toList ≠ []) (h : ∀ c ∈ t.toList, p c)
    (hp : [' ', '\n', '(', ')', '"'].any p = false) : isWord t :=
  isWord_iff.mpr ⟨hne, fun c hc => isOrdinary_of (h c hc) hp⟩

/-! ## Reading back -/

/-- Nothing goes on with a word at the beginning of `r`. -/
def Ends (r : List Char) : Prop :=
  ∀ c ∈ r.head?, ¬isOrdinary c

/-- A list is over at the beginning of `r`. -/
def Closes (r : List Char) : Prop :=
  ∀ c ∈ r.head?, c = ')'

theorem Closes.ends {r : List Char} (h : Closes r) : Ends r := by
  intro c hc
  rw [h c hc]
  decide

theorem exists_text_eq_cons {x : Nested} (h : x.Proper) : ∃ c cs, x.text = c :: cs ∧ c ≠ ')' := by
  cases x with
  | word t =>
      obtain ⟨hne, hordinary⟩ := isWord_iff.mp h
      obtain ⟨c, cs, ht⟩ := List.exists_cons_of_ne_nil hne
      refine ⟨c, cs, ht, ?_⟩
      rintro rfl
      exact absurd (hordinary ')' (ht ▸ List.mem_cons_self)) (by decide)
  | quoted t => exact ⟨_, _, Text.toList_quoteString t, by decide⟩
  | list items => exact ⟨_, _, rfl, by decide⟩

theorem word_ne {t : String} {c : Char} {r s : List Char} (h : isWord t) (hc : ¬isOrdinary c) :
    t.toList ++ r ≠ c :: s := by
  obtain ⟨hne, hordinary⟩ := isWord_iff.mp h
  obtain ⟨d, ds, ht⟩ := List.exists_cons_of_ne_nil hne
  rw [ht]
  intro heq
  exact hc ((List.cons.inj heq).1 ▸ hordinary d (ht ▸ List.mem_cons_self))

theorem closes_ne {x : Nested} {r s : List Char} (h : x.Proper) (hr : Closes r) :
    r ≠ x.text ++ s := by
  obtain ⟨c, cs, hx, hc⟩ := exists_text_eq_cons h
  rintro rfl
  exact hc (hr c (by rw [hx]; rfl))

mutual
/-- Two nested lists with something behind each have the same text only if they are the same, and so
is what is behind them. -/
theorem text_cancel : (x y : Nested) → {r s : List Char} → x.Proper → y.Proper → Ends r → Ends s →
    x.text ++ r = y.text ++ s → x = y ∧ r = s
  | word t, word u, r, s, hx, hy, hr, hs, h => by
      obtain ⟨htu, hrs⟩ := Text.stretch_unique (isWord_iff.mp hx).2 (isWord_iff.mp hy).2 hr hs h
      exact ⟨congrArg word (String.toList_inj.mp htu), hrs⟩
  | word t, quoted u, _, _, hx, _, _, _, h => by
      rw [text, text, Text.toList_quoteString] at h
      exact absurd h (word_ne hx (by decide))
  | word t, list ys, _, _, hx, _, _, _, h => absurd h (word_ne hx (by decide))
  | quoted t, word u, _, _, _, hy, _, _, h => by
      rw [text, text, Text.toList_quoteString] at h
      exact absurd h.symm (word_ne hy (by decide))
  | quoted t, quoted u, _, _, _, _, _, _, h => by
      obtain ⟨rfl, hrs⟩ := Text.quoteString_cancel h
      exact ⟨rfl, hrs⟩
  | quoted t, list ys, _, _, _, _, _, _, h => by
      rw [text, text, Text.toList_quoteString] at h
      exact absurd (List.cons.inj h).1 (by decide)
  | list xs, word u, _, _, _, hy, _, _, h => absurd h.symm (word_ne hy (by decide))
  | list xs, quoted u, _, _, _, _, _, _, h => by
      rw [text, text, Text.toList_quoteString] at h
      exact absurd (List.cons.inj h).1 (by decide)
  | list xs, list ys, r, s, hx, hy, _, _, h => by
      simp only [text, List.cons_append, List.append_assoc, List.nil_append, List.cons.injEq,
        true_and] at h
      have hclose {t : List Char} : Closes (')' :: t) := fun c hc => (Option.some.inj hc).symm
      obtain ⟨hxy, hrs⟩ := texts_cancel (by decide) (by decide) xs ys hx hy hclose hclose h
      exact ⟨congrArg list hxy, (List.cons.inj hrs).2⟩

theorem texts_cancel {separator : Char} (hsep : ¬isOrdinary separator) (hclose : separator ≠ ')') :
    (xs ys : List Nested) → {r s : List Char} → ProperAll xs → ProperAll ys → Closes r →
    Closes s → texts separator xs ++ r = texts separator ys ++ s → xs = ys ∧ r = s
  | [], [], _, _, _, _, _, _, h => ⟨rfl, h⟩
  | [], y :: ys, r, s, _, hy, hr, _, h => by
      rw [texts, texts, List.append_assoc] at h
      exact absurd h (closes_ne hy.1 hr)
  | x :: xs, [], r, s, hx, _, _, hs, h => by
      rw [texts, texts, List.append_assoc] at h
      exact absurd h.symm (closes_ne hx.1 hs)
  | x :: xs, y :: ys, r, s, hx, hy, hr, hs, h => by
      rw [texts, texts, List.append_assoc, List.append_assoc] at h
      obtain ⟨rfl, hrest⟩ := text_cancel x y hx.1 hy.1 (ends_tails hsep xs hr)
        (ends_tails hsep ys hs) h
      obtain ⟨rfl, hrs⟩ := tails_cancel hsep hclose xs ys hx.2 hy.2 hr hs hrest
      exact ⟨rfl, hrs⟩

theorem tails_cancel {separator : Char} (hsep : ¬isOrdinary separator) (hclose : separator ≠ ')') :
    (xs ys : List Nested) → {r s : List Char} → ProperAll xs → ProperAll ys → Closes r →
    Closes s → tails separator xs ++ r = tails separator ys ++ s → xs = ys ∧ r = s
  | [], [], _, _, _, _, _, _, h => ⟨rfl, h⟩
  | [], y :: ys, r, s, _, _, hr, _, h =>
      absurd (hr separator (by rw [show r = _ from h]; rfl)) hclose
  | x :: xs, [], r, s, _, _, _, hs, h =>
      absurd (hs separator (by rw [show s = _ from h.symm]; rfl)) hclose
  | x :: xs, y :: ys, r, s, hx, hy, hr, hs, h => by
      simp only [tails, List.cons_append, List.append_assoc, List.cons.injEq, true_and] at h
      obtain ⟨rfl, hrest⟩ := text_cancel x y hx.1 hy.1 (ends_tails hsep xs hr)
        (ends_tails hsep ys hs) h
      obtain ⟨rfl, hrs⟩ := tails_cancel hsep hclose xs ys hx.2 hy.2 hr hs hrest
      exact ⟨rfl, hrs⟩

theorem ends_tails {separator : Char} (hsep : ¬isOrdinary separator) : (xs : List Nested) →
    {r : List Char} → Closes r → Ends (tails separator xs ++ r)
  | [], _, hr => hr.ends
  | _ :: _, _, _ => fun _ hc => Option.some.inj hc ▸ hsep
end

end Nested

end Monkey
