import Monkey.Operator
import Monkey.Span

/-!
# Faults

What can go wrong while a program runs, and the span to blame. Values appear by the names of their
types.
-/

namespace Monkey

inductive FaultCause where
  | typeMismatch (lhs : String) (op : BinaryOp) (rhs : String)
  | unknownUnary (op : UnaryOp) (operand : String)
  | unknownBinary (lhs : String) (op : BinaryOp) (rhs : String)
  | unbound (name : String)
  | notCallable (type : String)
  | arity (expected actual : Nat)
  | builtinArity (expected actual : Nat)
  | badArgument (builtin type : String)
  | divisionByZero
  | notIndexable (type : String)
  | unhashable (type : String)
  | callDepth (limit : Nat)
deriving DecidableEq

structure Fault where
  cause : FaultCause
  span : Span
deriving DecidableEq

namespace FaultCause

def code : FaultCause → String
  | typeMismatch .. => "RT001"
  | unknownUnary .. => "RT002"
  | unknownBinary .. => "RT003"
  | unbound .. => "RT004"
  | notCallable .. => "RT005"
  | arity .. => "RT006"
  | builtinArity .. => "RT007"
  | badArgument .. => "RT008"
  | divisionByZero => "RT009"
  | notIndexable .. => "RT010"
  | unhashable .. => "RT011"
  | callDepth .. => "RT012"

def message : FaultCause → String
  | typeMismatch lhs op rhs => "type mismatch: " ++ lhs ++ " " ++ op.symbol ++ " " ++ rhs
  | unknownUnary op operand => "unknown operator: " ++ op.symbol ++ operand
  | unknownBinary lhs op rhs => "unknown operator: " ++ lhs ++ " " ++ op.symbol ++ " " ++ rhs
  | unbound name => "identifier not found: " ++ name
  | notCallable type => "not a function: " ++ type
  | arity expected actual =>
    "wrong number of arguments: want=" ++ toString expected ++ ", got=" ++ toString actual
  | builtinArity expected actual =>
    "wrong number of arguments. got=" ++ toString actual ++ ", want=" ++ toString expected
  | badArgument builtin type => "argument to `" ++ builtin ++ "` not supported, got " ++ type
  | divisionByZero => "division by zero"
  | notIndexable type => "index operator not supported: " ++ type
  | unhashable type => "unusable as hash key: " ++ type
  | callDepth limit => "maximum call depth of " ++ toString limit ++ " exceeded"

end FaultCause

/-- The fault on a line of its own, after its line number. -/
def Fault.listing (lines : LineTable) (f : Fault) : String :=
  "(" ++ toString (lines.line f.span.start) ++ ") ERROR: " ++ f.cause.message

end Monkey
