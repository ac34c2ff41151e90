import Monkey.Value.Text

/-!
# Builtin functions

A name that is bound in no scope may still be that of a builtin function. All builtins but `puts`
only compute a value; `puts` writes its arguments, each on a line of its own.
-/

namespace Monkey.Builtin

def all : List Builtin :=
  [len, first, last, rest, push, puts]

def name : Builtin → String
  | len => "len"
  | first => "first"
  | last => "last"
  | rest => "rest"
  | push => "push"
  | puts => "puts"

def ofName? (name : String) : Option Builtin :=
  all.find? fun b => b.name = name

/-- What a builtin that takes one argument makes of its arguments. -/
def one (f : Value → Except FaultCause Value) : List Value → Except FaultCause Value
  | [v] => f v
  | args => .error (.builtinArity 1 args.length)

def unsupported (b : Builtin) (v : Value) : Except FaultCause Value :=
  .error (.badArgument b.name v.typeName)

/-- The value of a call. The length of a string is its number of characters. -/
def call : Builtin → List Value → Except FaultCause Value
  | len, args => args |> one fun
    | .str s => .ok (.int (.ofNat s.length))
    | .array items => .ok (.int (.ofNat items.length))
    | v => unsupported len v
  | first, args => args |> one fun
    | .array items => .ok (items.head?.getD .null)
    | v => unsupported first v
  | last, args => args |> one fun
    | .array items => .ok (items.getLast?.getD .null)
    | v => unsupported last v
  | rest, args => args |> one fun
    | .array [] => .ok .null
    | .array (_ :: items) => .ok (.array items)
    | v => unsupported rest v
  | push, [.array items, v] => .ok (.array (items ++ [v]))
  | push, [v, _] => unsupported push v
  | push, args => .error (.builtinArity 2 args.length)
  | puts, _ => .ok .null

/-- What a call writes. -/
def written : Builtin → List Value → String
  | puts, args => String.join (args.map fun v => v.text ++ "\n")
  | _, _ => ""

theorem mem_all (b : Builtin) : b ∈ all := by
  cases b <;> decide

theorem ofName?_name (b : Builtin) : ofName? b.name = some b := by
  cases b <;> decide

end Monkey.Builtin
