import Monkey.Syntax
import Monkey.Syntax.Error

/-!
# The place reached in a token stream

A parser sees two tokens, the one it stands on and the one after it. Lexical errors on the way are
put on the list of errors and are otherwise invisible.
-/

namespace Monkey

structure Cursor where
  current : Token
  peek : Token
  /-- What follows the token after the current one. -/
  rest : List Item
  /-- The span of the end, which follows all of `rest` for ever. -/
  stop : Span
  /-- The errors found so far, in order. -/
  errors : Array SyntaxError
  /-- How many braces are open before the current token; a brace closed too often is not counted. -/
  nesting : Nat

namespace Cursor

/-- The next token, what follows it, and the errors with those in front of it added. -/
def pull (stop : Span) (errors : Array SyntaxError) :
    List Item → Token × List Item × Array SyntaxError
  | [] => (.eof stop, [], errors)
  | .ok t :: rest => (t, rest, errors)
  | .error e :: rest => pull stop (errors.push (.ofLexical e)) rest

section Pull

variable {s s' : TokenStream}

/-- A token is what a stream comes to next. -/
theorem pull_of_next_ok {t : Token} (h : s.next = (.ok t, s')) (errors : Array SyntaxError) :
    pull s.stop errors s.items = (t, s'.items, errors) := by
  obtain ⟨_ | ⟨_ | u, is⟩, stop⟩ := s <;> cases h <;> rfl

/-- Over a lexical error the stream is asked again. -/
theorem pull_of_next_error {e : LexicalError} (h : s.next = (.error e, s'))
    (errors : Array SyntaxError) :
    pull s.stop errors s.items = pull s'.stop (errors.push (.ofLexical e)) s'.items := by
  obtain ⟨_ | ⟨_ | u, is⟩, stop⟩ := s <;> cases h
  rfl

end Pull

/-- The nesting after a token, from the nesting before it. -/
def nestingAfter (nesting : Nat) : Kind → Nat
  | .leftBrace => nesting + 1
  | .rightBrace => nesting - 1
  | _ => nesting

/-- The place one token on. -/
def advance (c : Cursor) : Cursor :=
  let (next, rest, errors) := pull c.stop c.errors c.rest
  { c with
    current := c.peek
    peek := next
    rest
    errors
    nesting := nestingAfter c.nesting c.current.kind }

/-- The place at the first token of a stream. -/
def ofStream (s : TokenStream) : Cursor :=
  let (current, rest, errors) := pull s.stop #[] s.items
  let (peek, rest, errors) := pull s.stop errors rest
  ⟨current, peek, rest, s.stop, errors, 0⟩

/-- A bound on the number of tokens from the current one on, the end not counted. -/
def left (c : Cursor) : Nat :=
  c.rest.length + 2

def report (c : Cursor) (e : SyntaxError) : Cursor :=
  { c with errors := c.errors.push e }

end Cursor

/-! ## Parsers -/

/-- A parser moves the place in the stream, also when it fails. -/
abbrev Parse := EStateM SyntaxError Cursor

namespace Parse

def current : Parse Token :=
  return (← get).current

def currentIdent : Parse Ident := do
  let t ← current
  return ⟨t.lexeme, t.span⟩

def peekKind : Parse Kind :=
  return (← get).peek.kind

def advance : Parse Unit :=
  modify Cursor.advance

/-- Moves on to the next token, which must be of a kind. -/
def expect (kind : Kind) : Parse Unit := do
  let next := (← get).peek
  if next.kind = kind then advance
  else throw ⟨.unexpected kind next.kind, next.span⟩

/-- Moves on to the next token if it is of a kind. -/
def accept (kind : Kind) : Parse Bool := do
  if (← peekKind) = kind then
    advance
    return true
  else
    return false

/-- The current token begins no expression. -/
def noOperand {α : Type} : Parse α := do
  let t ← current
  throw ⟨.noOperand t.kind, t.span⟩

end Parse

end Monkey
