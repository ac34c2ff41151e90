import Monkey.Proofs.Parse.Passage

/-!
# Outcomes of parsers

A parser ends behind some of the tokens in front of it, with a value or with an error. An error
blames the token that the parser stopped at, or the one after that.

A parser is followed step by step: each rule of this module takes the first step of a parser, and
what is claimed of the tokens passed is claimed of what remains to be passed.
-/

namespace Monkey

/-- The error is about the token. -/
def SyntaxError.Blames (e : SyntaxError) (t : Token) : Prop :=
  e.span = t.span ∧
    match e.cause with
    | .unexpected expected actual => actual = t.kind ∧ expected ≠ actual
    | .noOperand k => k = t.kind
    | .badInteger lexeme => .integer = t.kind ∧ lexeme = t.lexeme
    | .lexical _ => False

namespace Parse

open Cursor (Passes)

variable {α β : Type} {c c' : Cursor} {Q R : α → List Token → Cursor → Prop} {ts : List Token}

/-- How a parser ends that began at `c`: with a value, of which `Q` holds together with the tokens
passed and the place reached, or with an error. -/
def Outcome (c : Cursor) (Q : α → List Token → Cursor → Prop) :
    EStateM.Result SyntaxError Cursor α → Prop
  | .ok a c' => ∃ ts, Passes c ts c' ∧ Q a ts c'
  | .error e c' => (∃ ts, Passes c ts c') ∧ (e.Blames c'.current ∨ e.Blames c'.peek)

namespace Outcome

theorem mono {r : EStateM.Result SyntaxError Cursor α} (h : Outcome c Q r)
    (hQ : ∀ a ts c', Passes c ts c' → Q a ts c' → R a ts c') : Outcome c R r := by
  cases r with
  | ok a c' =>
      obtain ⟨ts, hp, hq⟩ := h
      exact ⟨ts, hp, hQ a ts c' hp hq⟩
  | error e c' => exact h

/-- What happens after some tokens, seen from in front of them. -/
theorem prepend {r : EStateM.Result SyntaxError Cursor α} (hp : Passes c ts c')
    (h : Outcome c' (fun a us => Q a (ts ++ us)) r) : Outcome c Q r := by
  cases r with
  | ok a d =>
      obtain ⟨us, hp', hq⟩ := h
      exact ⟨ts ++ us, hp.trans hp', hq⟩
  | error e d =>
      obtain ⟨⟨us, hp'⟩, hb⟩ := h
      exact ⟨⟨ts ++ us, hp.trans hp'⟩, hb⟩

theorem bind {x : Parse β} {f : β → Parse α} {P : β → List Token → Cursor → Prop}
    (hx : Outcome c P (x c))
    (hf : ∀ b ts c', Passes c ts c' → P b ts c' →
      Outcome c' (fun a us => Q a (ts ++ us)) (f b c')) :
    Outcome c Q ((x >>= f) c) := by
  cases hr : x c with
  | ok b c' =>
      rw [hr] at hx
      obtain ⟨ts, hp, hq⟩ := hx
      rw [bind_of_ok hr]
      exact prepend hp (hf b ts c' hp hq)
  | error e c' =>
      rw [hr] at hx
      rw [bind_of_error hr]
      exact hx

theorem pure {a : α} (h : Q a [] c) : Outcome c Q ((Pure.pure a : Parse α) c) :=
  ⟨[], .refl c, h⟩

theorem current {f : Token → Parse α} (h : Outcome c Q (f c.current c)) :
    Outcome c Q ((Parse.current >>= f) c) :=
  h

theorem currentIdent {f : Ident → Parse α}
    (h : Outcome c Q (f ⟨c.current.lexeme, c.current.span⟩ c)) :
    Outcome c Q ((Parse.currentIdent >>= f) c) :=
  h

theorem peekKind {f : Kind → Parse α} (h : Outcome c Q (f c.peek.kind c)) :
    Outcome c Q ((Parse.peekKind >>= f) c) :=
  h

theorem advance {f : Unit → Parse α} (hc : ¬c.current.isEof)
    (h : Outcome c.advance (fun a us => Q a (c.current :: us)) (f () c.advance)) :
    Outcome c Q ((Parse.advance >>= f) c) :=
  prepend (.one hc) h

theorem expect {k : Kind} {f : Unit → Parse α} (hc : ¬c.current.isEof)
    (h : c.advance.current.kind = k →
      Outcome c.advance (fun a us => Q a (c.current :: us)) (f () c.advance)) :
    Outcome c Q ((Parse.expect k >>= f) c) := by
  by_cases hk : c.peek.kind = k
  · rw [bind_of_ok (expect_of_eq hk)]
    exact prepend (.one hc) (h hk)
  · rw [bind_of_error (expect_of_ne hk)]
    exact ⟨⟨[], .refl c⟩, .inr ⟨rfl, rfl, fun he => hk he.symm⟩⟩

theorem accept {k : Kind} {f : Bool → Parse α} (hc : ¬c.current.isEof)
    (hyes : c.advance.current.kind = k →
      Outcome c.advance (fun a us => Q a (c.current :: us)) (f true c.advance))
    (hno : c.peek.kind ≠ k → Outcome c Q (f false c)) :
    Outcome c Q ((Parse.accept k >>= f) c) := by
  by_cases hk : c.peek.kind = k
  · rw [bind_of_ok (accept_of_eq hk)]
    exact prepend (.one hc) (hyes hk)
  · rw [bind_of_ok (accept_of_ne hk)]
    exact hno hk

theorem noOperand (c : Cursor) : Outcome c Q ((Parse.noOperand : Parse α) c) :=
  ⟨⟨[], .refl c⟩, .inl ⟨rfl, rfl⟩⟩

end Outcome

/-! ## Whole constructs -/

/-- A parser at the first token of a construct, with at most `n` tokens ahead, leaves the place at
the last one, and the words from the one to the other are as `S` says. -/
def Outcome.Whole (S : α → List Word → Prop) (a : α) (ts : List Token) (c' : Cursor) : Prop :=
  ¬c'.current.isEof ∧ S a (ts.map Token.word ++ [c'.current.word])

end Parse

end Monkey
