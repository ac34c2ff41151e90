import Monkey.Operator
import Monkey.Span

/-!
# Syntax trees

A program is a list of statements. Every node carries the span of the source that it was read from.
-/

namespace Monkey

structure Ident where
  name : String
  span : Span
deriving DecidableEq

mutual
inductive Expr where
  | ident (name : String) (span : Span)
  | int (value : Int64) (span : Span)
  | bool (value : Bool) (span : Span)
  | str (value : String) (span : Span)
  | unary (op : UnaryOp) (operand : Expr) (span : Span)
  | binary (op : BinaryOp) (lhs rhs : Expr) (span : Span)
  | cond (test : Expr) (yes : Block) (no : Option Block) (span : Span)
  | fn (params : List Ident) (body : Block) (span : Span)
  | call (callee : Expr) (args : List Expr) (span : Span)
  | array (items : List Expr) (span : Span)
  | index (object key : Expr) (span : Span)
  | hash (pairs : List (Expr × Expr)) (span : Span)

inductive Stmt where
  | bind (target : Ident) (value : Expr) (span : Span)
  | ret (value : Expr) (span : Span)
  | expr (value : Expr) (span : Span)
  | block (body : Block)

inductive Block where
  | mk (stmts : List Stmt) (span : Span)
end

abbrev Program := List Stmt

def Expr.span : Expr → Span
  | .ident _ s | .int _ s | .bool _ s | .str _ s | .unary _ _ s | .binary _ _ _ s | .cond _ _ _ s
  | .fn _ _ s | .call _ _ s | .array _ s | .index _ _ s | .hash _ s => s

namespace Block

def stmts : Block → List Stmt
  | mk ss _ => ss

def span : Block → Span
  | mk _ s => s

@[simp] theorem stmts_mk (ss : List Stmt) (s : Span) : (mk ss s).stmts = ss := rfl

@[simp] theorem span_mk (ss : List Stmt) (s : Span) : (mk ss s).span = s := rfl

end Block

def Stmt.span : Stmt → Span
  | .bind _ _ s | .ret _ s | .expr _ s => s
  | .block b => b.span

end Monkey
