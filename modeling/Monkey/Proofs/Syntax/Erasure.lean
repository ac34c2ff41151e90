import Monkey.Syntax
import Monkey.Syntax.Error

/-!
# Trees moved, and trees without their places

A function on spans moves all nodes of a tree to other places. To take the places away is to move
all nodes to one place: two trees are the same up to spans if they are the same tree then. So it is
with tokens and errors.
-/

namespace Monkey

/-! ## Other places -/

section Respan

variable (f : Span → Span)

def Ident.respan (p : Ident) : Ident :=
  ⟨p.name, f p.span⟩

mutual
@[simp] def Expr.respan : Expr → Expr
  | .ident name s => .ident name (f s)
  | .int v s => .int v (f s)
  | .bool v s => .bool v (f s)
  | .str v s => .str v (f s)
  | .unary op operand s => .unary op operand.respan (f s)
  | .binary op lhs rhs s => .binary op lhs.respan rhs.respan (f s)
  | .cond test yes none s => .cond test.respan yes.respan none (f s)
  | .cond test yes (some no) s => .cond test.respan yes.respan (some no.respan) (f s)
  | .fn params body s => .fn (params.map (Ident.respan f)) body.respan (f s)
  | .call callee args s => .call callee.respan (Expr.respanAll args) (f s)
  | .array items s => .array (Expr.respanAll items) (f s)
  | .index object key s => .index object.respan key.respan (f s)
  | .hash pairs s => .hash (Expr.respanPairs pairs) (f s)

@[simp] def Expr.respanAll : List Expr → List Expr
  | [] => []
  | e :: es => e.respan :: Expr.respanAll es

@[simp] def Expr.respanPairs : List (Expr × Expr) → List (Expr × Expr)
  | [] => []
  | (key, value) :: ps => (key.respan, value.respan) :: Expr.respanPairs ps

@[simp] def Stmt.respan : Stmt → Stmt
  | .bind target value s => .bind (target.respan f) value.respan (f s)
  | .ret value s => .ret value.respan (f s)
  | .expr value s => .expr value.respan (f s)
  | .block body => .block body.respan

@[simp] def Stmt.respanAll : List Stmt → List Stmt
  | [] => []
  | s :: ss => s.respan :: Stmt.respanAll ss

@[simp] def Block.respan : Block → Block
  | .mk stmts s => .mk (Stmt.respanAll stmts) (f s)
end

end Respan

/-! ## No places -/

def Span.zero : Span :=
  ⟨0, 0⟩

abbrev Ident.erase (p : Ident) : Ident :=
  p.respan fun _ => .zero

abbrev Expr.erase (e : Expr) : Expr :=
  e.respan fun _ => .zero

abbrev Expr.eraseAll (es : List Expr) : List Expr :=
  Expr.respanAll (fun _ => .zero) es

abbrev Expr.erasePairs (ps : List (Expr × Expr)) : List (Expr × Expr) :=
  Expr.respanPairs (fun _ => .zero) ps

abbrev Stmt.erase (s : Stmt) : Stmt :=
  s.respan fun _ => .zero

abbrev Stmt.eraseAll (ss : List Stmt) : List Stmt :=
  Stmt.respanAll (fun _ => .zero) ss

abbrev Block.erase (b : Block) : Block :=
  b.respan fun _ => .zero

/-- A program without the places of its parts. -/
def Program.erase (p : Program) : Program :=
  Stmt.eraseAll p

/-- A token without its place, or a lexical error without its place. -/
def Item.erase : Item → Item
  | .ok t => .ok ⟨t.kind, t.lexeme, .zero⟩
  | .error e => .error ⟨e.cause, .zero⟩

def SyntaxError.erase (e : SyntaxError) : SyntaxError :=
  ⟨e.cause, .zero⟩

end Monkey
