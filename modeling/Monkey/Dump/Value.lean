import Monkey.Builtin
import Monkey.Dump.Syntax
import Monkey.Scope

/-!
# Dumps of values, faults and environments
-/

namespace Monkey

open Dump (atom record abridged tuple list map)

def FaultCause.dump : FaultCause → Dump
  | typeMismatch lhs op rhs =>
    record "TypeMismatch"
      [("lhs", .ofString lhs), ("operator", atom op.name), ("rhs", .ofString rhs)]
  | unknownUnary op operand =>
    record "UnknownPrefixOperator" [("operator", atom op.name), ("operand", .ofString operand)]
  | unknownBinary lhs op rhs =>
    record "UnknownInfixOperator"
      [("lhs", .ofString lhs), ("operator", atom op.name), ("rhs", .ofString rhs)]
  | unbound name => tuple "IdentifierNotFound" [.ofString name]
  | notCallable type => tuple "NotAFunction" [.ofString type]
  | arity expected actual =>
    record "WrongArgumentCount" [("expected", .ofNat expected), ("actual", .ofNat actual)]
  | builtinArity expected actual =>
    record "WrongBuiltinArgumentCount" [("expected", .ofNat expected), ("actual", .ofNat actual)]
  | badArgument builtin type =>
    record "UnsupportedArgument" [("function", .ofString builtin), ("actual", .ofString type)]
  | divisionByZero => atom "DivisionByZero"
  | notIndexable type => tuple "IndexNotSupported" [.ofString type]
  | unhashable type => tuple "UnusableHashKey" [.ofString type]
  | callDepth limit => tuple "CallDepthExceeded" [.ofNat limit]

def Fault.dump (f : Fault) : Dump :=
  record "RuntimeError" [("kind", f.cause.dump), ("span", f.span.dump)]

def HashKey.dump : HashKey → Dump
  | int v => tuple "Integer" [.ofInt64 v]
  | bool v => tuple "Boolean" [.ofBool v]
  | str v => tuple "String" [.ofString v]

def Builtin.dump : Builtin → Dump
  | len => atom "NativeLen"
  | first => atom "NativeFirst"
  | last => atom "NativeLast"
  | rest => atom "NativeRest"
  | push => atom "NativePush"
  | puts => atom "NativePuts"

/-- The environment of a function may lead back to it, so it is not shown. -/
def Closure.dump (c : Closure) : Dump :=
  abridged "Function" [("parameters", list (c.params.map Ident.dump))]

mutual
def Value.dump : Value → Dump
  | .int v => tuple "Integer" [.ofInt64 v]
  | .bool v => tuple "Boolean" [.ofBool v]
  | .str v => tuple "String" [.ofString v]
  | .null => atom "Null"
  | .array items => tuple "Array" [list (Value.dumps items)]
  | .hash entries => tuple "Hash" [map (Value.entryDumps entries)]
  | .closure c => tuple "Function" [c.dump]
  | .builtin b => tuple "NativeFunction" [b.dump]
  | .signal s => s.dump

def Value.dumps : List Value → List Dump
  | [] => []
  | v :: vs => v.dump :: Value.dumps vs

def Value.entryDumps : List (HashKey × Value) → List (Dump × Dump)
  | [] => []
  | (k, v) :: es => (k.dump, v.dump) :: Value.entryDumps es

def Signal.dump : Signal → Dump
  | .ret v => tuple "Return" [v.dump]
  | .fault f => tuple "Error" [f.dump]
end

/-- Values may lead back to their environment, so only their names are shown. -/
def Heap.dump (h : Heap) (e : Env) : Dump :=
  record "Environment"
    [("names", list ((h.names e).map Dump.ofString)), ("has_parent", .ofBool (h.parent? e).isSome)]

end Monkey
