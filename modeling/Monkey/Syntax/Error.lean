import Monkey.Token

/-!
# Syntax errors

What can be wrong with a source text, and the span to blame.
-/

namespace Monkey

inductive SyntaxCause where
  | unexpected (expected actual : Kind)
  /-- A token that begins no expression, where one was to begin. -/
  | noOperand (kind : Kind)
  /-- An integer literal that does not fit in 64 bits. -/
  | badInteger (lexeme : String)
  | lexical (cause : LexicalCause)
deriving DecidableEq

structure SyntaxError where
  cause : SyntaxCause
  span : Span
deriving DecidableEq

namespace SyntaxCause

def code : SyntaxCause → String
  | unexpected _ _ => "PE001"
  | noOperand _ => "PE002"
  | badInteger _ => "PE004"
  | lexical c => c.code

def message : SyntaxCause → String
  | unexpected expected actual =>
    "expected next token to be " ++ expected.symbol ++ ", got " ++ actual.symbol ++ " instead"
  | noOperand kind => "no prefix parse function for " ++ kind.symbol ++ " found"
  | badInteger lexeme => "could not parse " ++ lexeme ++ " as integer"
  | lexical c => c.message

end SyntaxCause

namespace SyntaxError

def ofLexical (e : LexicalError) : SyntaxError :=
  ⟨.lexical e.cause, e.span⟩

/-- The error on a line of its own, after its line number. -/
def listing (lines : LineTable) (e : SyntaxError) : String :=
  "(" ++ toString (lines.line e.span.start) ++ ") " ++ e.cause.message

end SyntaxError

end Monkey
