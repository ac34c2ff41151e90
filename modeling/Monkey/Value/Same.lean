import Monkey.Value

/-!
# Equality of values

Data is equal part by part, functions if they are one and the same, builtins by name. This is the
equality that a host sees; the operator `==` of the language is defined on fewer values.
-/

namespace Monkey

mutual
def Value.same : Value → Value → Bool
  | .int a, .int b => a = b
  | .bool a, .bool b => a = b
  | .str a, .str b => a = b
  | .null, .null => true
  | .array as, .array bs => Value.sameAll as bs
  | .hash as, .hash bs => Value.sameEntries as bs
  | .closure a, .closure b => a.id = b.id
  | .builtin a, .builtin b => a = b
  | .signal a, .signal b => a.same b
  | _, _ => false

def Value.sameAll : List Value → List Value → Bool
  | [], [] => true
  | a :: as, b :: bs => a.same b && Value.sameAll as bs
  | _, _ => false

def Value.sameEntries : List (HashKey × Value) → List (HashKey × Value) → Bool
  | [], [] => true
  | (k, a) :: as, (l, b) :: bs => k = l && a.same b && Value.sameEntries as bs
  | _, _ => false

def Signal.same : Signal → Signal → Bool
  | .ret a, .ret b => a.same b
  | .fault a, .fault b => a = b
  | _, _ => false
end

end Monkey
