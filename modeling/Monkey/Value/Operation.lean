import Monkey.Value

/-!
# Operators on values

Integer arithmetic is modulo `2 ^ 64` in the signed range; division rounds toward zero.
-/

namespace Monkey.Value

/-- An operator that is defined on neither type, or not on the two types together. -/
def mismatch (op : BinaryOp) (a b : Value) : FaultCause :=
  if a.typeName = b.typeName then .unknownBinary a.typeName op b.typeName
  else .typeMismatch a.typeName op b.typeName

def not (v : Value) : Value :=
  .bool !v.isTruthy

def negate : Value → Except FaultCause Value
  | int v => .ok (int (-v))
  | v => .error (.unknownUnary .negate v.typeName)

def unary : UnaryOp → Value → Except FaultCause Value
  | .not, v => .ok v.not
  | .negate, v => v.negate

/-- Whether two simple values are equal; none if the language does not compare them. -/
def equal? : Value → Value → Option Bool
  | int a, int b => some (a = b)
  | bool a, bool b => some (a = b)
  | str a, str b => some (a = b)
  | null, null => some true
  | bool _, null | null, bool _ => some false
  | _, _ => none

def binary : BinaryOp → Value → Value → Except FaultCause Value
  | .add, int a, int b => .ok (int (a + b))
  | .add, str a, str b => .ok (str (a ++ b))
  | .subtract, int a, int b => .ok (int (a - b))
  | .multiply, int a, int b => .ok (int (a * b))
  | .divide, int a, int b => if b = 0 then .error .divisionByZero else .ok (int (a / b))
  | .lessThan, int a, int b => .ok (bool (a < b))
  | .lessEqual, int a, int b => .ok (bool (a ≤ b))
  | .greaterThan, int a, int b => .ok (bool (b < a))
  | .greaterEqual, int a, int b => .ok (bool (b ≤ a))
  | .equal, a, b =>
    match equal? a b with
    | some e => .ok (bool e)
    | none => .error (mismatch .equal a b)
  | .notEqual, a, b =>
    match equal? a b with
    | some e => .ok (bool !e)
    | none => .error (mismatch .notEqual a b)
  | op, a, b => .error (mismatch op a b)

/-- The item at a place; `null` if there is none. -/
def item (items : List Value) (i : Int64) : Value :=
  if i < 0 then null else items.getD i.toInt.toNat null

def index : Value → Value → Except FaultCause Value
  | array items, int i => .ok (item items i)
  | hash entries, key => do
    let k ← key.hashKey
    return (Entries.get? k entries).getD null
  | object, _ => .error (.notIndexable object.typeName)

end Monkey.Value
