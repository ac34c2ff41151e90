import Monkey.Fault
import Monkey.Syntax.Error

/-!
# Reports

A report is what is known of an error that is to be drawn beside the source: the code and title of
the error, the stretch of the source to point at, and a label for that stretch. How it is drawn is
left to the program around.
-/

namespace Monkey

structure Report where
  source : String
  code : String
  title : String
  /-- The bytes to point at, from number `start` up to, not including, number `stop`. -/
  start : Nat
  stop : Nat
  label : String
  start_le_stop : start ≤ stop
  stop_le_size : stop ≤ source.utf8ByteSize
deriving DecidableEq

/-- A report on a span. What the span has behind the source is cut off: that of the end starts one
past the text. -/
def Report.ofSpan (source code title : String) (span : Span) (label : String) : Report where
  source
  code
  title
  start := min span.start.toNat source.utf8ByteSize
  stop := max (min span.start.toNat source.utf8ByteSize) (min span.stop.toNat source.utf8ByteSize)
  label
  start_le_stop := Nat.le_max_left _ _
  stop_le_size := Nat.max_le.mpr ⟨Nat.min_le_right _ _, Nat.min_le_right _ _⟩

/-! ## Reports of errors -/

def LexicalCause.label : LexicalCause → String
  | unrecognized c => Text.quoteChar c ++ " is not part of the language"
  | unclosedString => "String starts here..."
  | unknownEscape c => "\\" ++ c.toString ++ " is not a valid escape"

def LexicalError.report (source : String) (e : LexicalError) : Report :=
  .ofSpan source e.cause.code e.cause.message e.span e.cause.label

def SyntaxCause.title : SyntaxCause → String
  | unexpected _ .eof => "Unexpected end of input"
  | unexpected _ _ => "Expected a different token"
  | noOperand _ => "Expected an expression"
  | badInteger _ => "Invalid integer literal"
  | lexical _ => "Invalid input"

def SyntaxCause.label : SyntaxCause → String
  | unexpected expected .eof => "Expected " ++ expected.symbol ++ " before the input ends"
  | unexpected expected actual => "Expected " ++ expected.symbol ++ " but got " ++ actual.symbol
  | noOperand kind => kind.symbol ++ " cannot start an expression"
  | badInteger lexeme => lexeme ++ " does not fit in a 64-bit integer"
  | lexical cause => cause.message

def SyntaxError.report (source : String) (e : SyntaxError) : Report :=
  .ofSpan source e.cause.code e.cause.title e.span e.cause.label

def FaultCause.title : FaultCause → String
  | typeMismatch .. => "Operands have different types"
  | unknownUnary .. => "Unsupported prefix operator"
  | unknownBinary .. => "Unsupported infix operator"
  | unbound .. => "Attempted to access an undefined identifier"
  | notCallable .. => "Attempted to call a value that is not callable"
  | arity .. => "Wrong number of arguments"
  | builtinArity .. => "Wrong number of builtin arguments"
  | badArgument .. => "Unsupported builtin argument"
  | divisionByZero => "Division by zero"
  | notIndexable .. => "Unsupported index operation"
  | unhashable .. => "Unusable hash key"
  | callDepth .. => "Call stack exhausted"

def FaultCause.label : FaultCause → String
  | typeMismatch lhs op rhs => "Cannot apply `" ++ op.symbol ++ "` to " ++ lhs ++ " and " ++ rhs
  | unknownUnary op operand => "`" ++ op.symbol ++ "` is not defined for " ++ operand
  | unknownBinary lhs op rhs => "`" ++ op.symbol ++ "` is not defined for " ++ lhs ++ " and " ++ rhs
  | unbound name => "`" ++ name ++ "` has not been bound"
  | notCallable type => type ++ " is not callable"
  | arity expected actual | builtinArity expected actual =>
    "Expected " ++ toString expected ++ " arguments but got " ++ toString actual
  | badArgument builtin type => "`" ++ builtin ++ "` does not accept " ++ type
  | divisionByZero => "The divisor evaluated to 0"
  | notIndexable type => type ++ " values cannot be indexed this way"
  | unhashable type => type ++ " values cannot be used as hash keys"
  | callDepth limit => "Nested calls exceeded the limit of " ++ toString limit

def Fault.report (source : String) (f : Fault) : Report :=
  .ofSpan source f.cause.code f.cause.title f.span f.cause.label

end Monkey
