import Monkey.Token

/-!
# Operators

The operators that stand before one operand or between two, and how tightly each binds.
-/

namespace Monkey

/-! ## Binding strength -/

/-- Binding strengths, weakest first. -/
inductive Precedence where
  | lowest
  | equality
  | comparison
  | sum
  | product
  | unary
  | call
  | index
deriving DecidableEq

namespace Precedence

def rank : Precedence → Nat
  | lowest => 0
  | equality => 1
  | comparison => 2
  | sum => 3
  | product => 4
  | unary => 5
  | call => 6
  | index => 7

instance : LT Precedence := ⟨fun p q => p.rank < q.rank⟩

instance : LE Precedence := ⟨fun p q => p.rank ≤ q.rank⟩

instance (p q : Precedence) : Decidable (p < q) :=
  inferInstanceAs (Decidable (p.rank < q.rank))

instance (p q : Precedence) : Decidable (p ≤ q) :=
  inferInstanceAs (Decidable (p.rank ≤ q.rank))

theorem rank_injective {p q : Precedence} (h : p.rank = q.rank) : p = q := by
  cases p <;> cases q <;> first | rfl | exact absurd h (by decide)

/-- How tightly a token binds that follows an operand. -/
def ofKind : Kind → Precedence
  | .equal | .notEqual => equality
  | .lessThan | .lessEqual | .greaterThan | .greaterEqual => comparison
  | .plus | .minus => sum
  | .asterisk | .slash => product
  | .leftParen => call
  | .leftBracket => index
  | _ => lowest

end Precedence

/-! ## Operators -/

inductive UnaryOp where
  | not
  | negate
deriving DecidableEq

namespace UnaryOp

def ofKind? : Kind → Option UnaryOp
  | .bang => some not
  | .minus => some negate
  | _ => none

def symbol : UnaryOp → String
  | not => "!"
  | negate => "-"

def name : UnaryOp → String
  | not => "Bang"
  | negate => "Minus"

end UnaryOp

inductive BinaryOp where
  | multiply | divide
  | add | subtract
  | lessThan | lessEqual | greaterThan | greaterEqual
  | equal | notEqual
deriving DecidableEq

namespace BinaryOp

def all : List BinaryOp :=
  [multiply, divide, add, subtract, lessThan, lessEqual, greaterThan, greaterEqual, equal, notEqual]

def ofKind? : Kind → Option BinaryOp
  | .asterisk => some multiply
  | .slash => some divide
  | .plus => some add
  | .minus => some subtract
  | .lessThan => some lessThan
  | .lessEqual => some lessEqual
  | .greaterThan => some greaterThan
  | .greaterEqual => some greaterEqual
  | .equal => some equal
  | .notEqual => some notEqual
  | _ => none

def symbol : BinaryOp → String
  | multiply => "*"
  | divide => "/"
  | add => "+"
  | subtract => "-"
  | lessThan => "<"
  | lessEqual => "<="
  | greaterThan => ">"
  | greaterEqual => ">="
  | equal => "=="
  | notEqual => "!="

def name : BinaryOp → String
  | multiply => "Multiply"
  | divide => "Divide"
  | add => "Add"
  | subtract => "Subtract"
  | lessThan => "LessThan"
  | lessEqual => "LessThanEqual"
  | greaterThan => "GreaterThan"
  | greaterEqual => "GreaterThanEqual"
  | equal => "Equal"
  | notEqual => "NotEqual"

theorem mem_all (op : BinaryOp) : op ∈ all := by
  cases op <;> decide

end BinaryOp

/-- The tokens that bind to an operand on their left are the binary operators and the two brackets
that call and index. -/
theorem Precedence.lowest_lt_ofKind_iff (k : Kind) :
    lowest < ofKind k ↔ (BinaryOp.ofKind? k).isSome ∨ k = .leftParen ∨ k = .leftBracket := by
  cases k <;> decide

end Monkey
