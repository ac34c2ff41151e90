import Monkey.Proofs.Parse.Passage

/-!
# Reading words

A parser reads some words if it succeeds at the first of them and leaves the place at the last one,
whatever the tokens are that carry the words.

A reading is built up step by step, as the parser goes: the rules of this module take its first step
and leave the words behind that step to be read.
-/

namespace Monkey

namespace Cursor

variable {c : Cursor} {w : Word} {ws : List Word}

/-- The place is at a token that these words follow. -/
def Before (c : Cursor) (ws : List Word) : Prop :=
  ∃ w, c.words = w :: ws

theorem before_of_words (h : c.words = w :: ws) : c.Before ws :=
  ⟨w, h⟩

theorem not_isEof_of_words (h : c.words = w :: ws) : ¬c.current.isEof := by
  intro hc
  simp [words, tokens_of_isEof hc] at h

theorem current_of_words (h : c.words = w :: ws) : c.current.word = w := by
  rw [words, tokens_eq_cons (not_isEof_of_words h), List.map_cons] at h
  exact (List.cons.inj h).1

theorem kind_of_words (h : c.words = w :: ws) : c.current.kind = w.kind := by
  rw [← Token.word_kind, current_of_words h]

theorem advance_words (h : c.Before ws) : c.advance.words = ws := by
  obtain ⟨w, h⟩ := h
  rw [words, tokens_eq_cons (not_isEof_of_words h), List.map_cons] at h
  exact (List.cons.inj h).2

theorem current_kind (c : Cursor) : c.current.kind = headKind c.words := by
  by_cases hc : c.current.isEof
  · rw [words, tokens_of_isEof hc]
    exact of_decide_eq_true hc
  · rw [words, tokens_eq_cons hc]
    exact (Token.word_kind _).symm

theorem peek_kind (h : c.Before ws) : c.peek.kind = headKind ws := by
  rw [← advance_words h]
  exact current_kind c.advance

end Cursor

namespace Parse

open Cursor (Before)

variable {α β : Type} {c : Cursor} {r ws : List Word} {w : Word} {P : α → Prop}

/-- The parser succeeds from `c` with a value as `P` says, and leaves the place at the token that
the words `r` follow. -/
def Reads (f : Parse α) (c : Cursor) (r : List Word) (P : α → Prop) : Prop :=
  ∃ a c', f c = .ok a c' ∧ P a ∧ c'.Before r

namespace Reads

/-- A parser reads what a parser reads that does the same here. -/
theorem congr {f g : Parse α} (h : Reads g c r P) (hfg : f c = g c) : Reads f c r P := by
  obtain ⟨a, c', hg, ha, hr⟩ := h
  exact ⟨a, c', hfg.trans hg, ha, hr⟩

theorem bind {x : Parse β} {f : β → Parse α} {Q : β → Prop} (hx : Reads x c ws Q)
    (hf : ∀ b c', Q b → c'.Before ws → Reads (f b) c' r P) : Reads (x >>= f) c r P := by
  obtain ⟨b, c', hb, hq, hw⟩ := hx
  obtain ⟨a, c'', ha, hp, hr⟩ := hf b c' hq hw
  exact ⟨a, c'', (bind_of_ok hb).trans ha, hp, hr⟩

theorem pure {a : α} (hr : c.Before r) (h : P a) : Reads (Pure.pure a) c r P :=
  ⟨a, c, rfl, h, hr⟩

theorem current {f : Token → Parse α} (h : Reads (f c.current) c r P) :
    Reads (Parse.current >>= f) c r P :=
  h

theorem currentIdent {f : Ident → Parse α}
    (h : Reads (f ⟨c.current.lexeme, c.current.span⟩) c r P) :
    Reads (Parse.currentIdent >>= f) c r P :=
  h

theorem peekKind {f : Kind → Parse α} (hw : c.Before ws) (h : Reads (f (headKind ws)) c r P) :
    Reads (Parse.peekKind >>= f) c r P := by
  rw [← Cursor.peek_kind hw] at h
  exact h

theorem advance {f : Unit → Parse α} (hw : c.Before ws)
    (h : ∀ c', c'.words = ws → Reads (f ()) c' r P) : Reads (Parse.advance >>= f) c r P :=
  h c.advance (Cursor.advance_words hw)

theorem expect {k : Kind} {f : Unit → Parse α} (hw : c.Before (w :: ws)) (hk : w.kind = k)
    (h : ∀ c', c'.words = w :: ws → Reads (f ()) c' r P) : Reads (Parse.expect k >>= f) c r P := by
  have hp : c.peek.kind = k := (Cursor.peek_kind hw).trans hk
  obtain ⟨a, c', hf, ha, hr⟩ := h c.advance (Cursor.advance_words hw)
  exact ⟨a, c', (bind_of_ok (expect_of_eq hp)).trans hf, ha, hr⟩

theorem accept {k : Kind} {f : Bool → Parse α} (hw : c.Before (w :: ws)) (hk : w.kind = k)
    (h : ∀ c', c'.words = w :: ws → Reads (f true) c' r P) :
    Reads (Parse.accept k >>= f) c r P := by
  have hp : c.peek.kind = k := (Cursor.peek_kind hw).trans hk
  obtain ⟨a, c', hf, ha, hr⟩ := h c.advance (Cursor.advance_words hw)
  exact ⟨a, c', (bind_of_ok (accept_of_eq hp)).trans hf, ha, hr⟩

theorem decline {k : Kind} {f : Bool → Parse α} (hw : c.Before ws) (hk : headKind ws ≠ k)
    (h : Reads (f false) c r P) : Reads (Parse.accept k >>= f) c r P := by
  have hp : c.peek.kind ≠ k := by rwa [Cursor.peek_kind hw]
  obtain ⟨a, c', hf, ha, hr⟩ := h
  exact ⟨a, c', (bind_of_ok (accept_of_ne hp)).trans hf, ha, hr⟩

end Reads

end Parse

end Monkey
