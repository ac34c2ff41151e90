import Mathlib.Logic.Relation
import Monkey.Syntax

/-!
# The nodes of a syntax tree

Expressions, statements, blocks and names as nodes of one tree. The parts of a node are listed in
the order in which they stand in the source.
-/

namespace Monkey

inductive Tree where
  | expr (e : Expr)
  | stmt (s : Stmt)
  | block (b : Block)
  | ident (x : Ident)

def Expr.children : Expr → List Tree
  | .ident _ _ | .int _ _ | .bool _ _ | .str _ _ => []
  | .unary _ e _ => [.expr e]
  | .binary _ l r _ => [.expr l, .expr r]
  | .cond test yes none _ => [.expr test, .block yes]
  | .cond test yes (some no) _ => [.expr test, .block yes, .block no]
  | .fn ps body _ => ps.map .ident ++ [.block body]
  | .call f args _ => .expr f :: args.map .expr
  | .array items _ => items.map .expr
  | .index object key _ => [.expr object, .expr key]
  | .hash ps _ => ps.flatMap fun p => [.expr p.1, .expr p.2]

def Stmt.children : Stmt → List Tree
  | .bind target value _ => [.ident target, .expr value]
  | .ret value _ | .expr value _ => [.expr value]
  | .block b => [.block b]

namespace Tree

def span : Tree → Span
  | expr e => e.span
  | stmt s => s.span
  | block b => b.span
  | ident x => x.span

/-- The parts of the node. -/
def children : Tree → List Tree
  | expr e => e.children
  | stmt s => s.children
  | block b => b.stmts.map stmt
  | ident _ => []

/-- The first node is the second one or a part of it, however deep inside. -/
def PartOf : Tree → Tree → Prop :=
  Relation.ReflTransGen fun t u => t ∈ u.children

end Tree

/-- The node belongs to one of the statements. -/
def Program.HasNode (p : Program) (t : Tree) : Prop :=
  ∃ s ∈ p, t.PartOf (.stmt s)

theorem Program.HasNode.child {p : Program} {t u : Tree} (h : Program.HasNode p u)
    (ht : t ∈ u.children) : Program.HasNode p t := by
  obtain ⟨s, hs, hu⟩ := h
  exact ⟨s, hs, hu.head ht⟩

end Monkey
