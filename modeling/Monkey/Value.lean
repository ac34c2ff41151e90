import Monkey.Entries
import Monkey.Fault
import Monkey.HashKey
import Monkey.Syntax

/-!
# Values

What expressions evaluate to. A signal is not a value that a program can hold: it is a value on its
way out of a function, or a fault on its way out of the program.
-/

namespace Monkey

/-! ## Parts of values -/

inductive Builtin where
  | len | first | last | rest | push | puts
deriving DecidableEq

/-- A handle on a scope of the heap. -/
structure Env where
  id : Nat
deriving DecidableEq

/-- A function with the environment that it was made in; `id` tells it from all other functions. -/
structure Closure where
  id : Nat
  params : List Ident
  body : Block
  env : Env

mutual
inductive Value where
  | int (value : Int64)
  | bool (value : Bool)
  | str (value : String)
  | null
  | array (items : List Value)
  /-- The entries are sorted by their keys. -/
  | hash (entries : List (HashKey × Value))
  | closure (c : Closure)
  | builtin (b : Builtin)
  | signal (s : Signal)

inductive Signal where
  | ret (value : Value)
  | fault (f : Fault)
end

def HashKey.toValue : HashKey → Value
  | int v => .int v
  | bool v => .bool v
  | str v => .str v

/-! ## Classes of values -/

namespace Value

def typeName : Value → String
  | int _ => "INTEGER"
  | bool _ => "BOOLEAN"
  | str _ => "STRING"
  | null => "NULL"
  | array _ => "ARRAY"
  | hash _ => "HASH"
  | closure _ => "FUNCTION"
  | builtin _ => "BUILTIN"
  | signal (.ret _) => "RETURN_VALUE"
  | signal (.fault _) => "ERROR"

def isSignal : Value → Bool
  | signal _ => true
  | _ => false

def isFault : Value → Bool
  | signal (.fault _) => true
  | _ => false

/-- Only `false` and `null` count as false. -/
def isTruthy : Value → Bool
  | bool false | null => false
  | _ => true

/-- The value on its way out of a function, once it is out. -/
def unwrapReturn : Value → Value
  | signal (.ret v) => v
  | v => v

def hashKey : Value → Except FaultCause HashKey
  | int v => .ok (.int v)
  | bool v => .ok (.bool v)
  | str v => .ok (.str v)
  | v => .error (.unhashable v.typeName)

end Value

end Monkey
