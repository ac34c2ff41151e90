import Monkey.Syntax
import Monkey.Text.Decimal

/-!
# Trees as source text

Every operator is written with its operands in parentheses, so the text shows how the tree groups.
-/

namespace Monkey

mutual
def Expr.source : Expr → String
  | .ident name _ => name
  | .int value _ => Text.ofInt64 value
  | .bool value _ => toString value
  | .str value _ => value
  | .unary op operand _ => "(" ++ op.symbol ++ operand.source ++ ")"
  | .binary op lhs rhs _ =>
    "(" ++ lhs.source ++ " " ++ op.symbol ++ " " ++ rhs.source ++ ")"
  | .cond test yes none _ => "if" ++ test.source ++ " " ++ yes.source
  | .cond test yes (some no) _ =>
    "if" ++ test.source ++ " " ++ yes.source ++ "else " ++ no.source
  | .fn params body _ => "fn(" ++ ", ".intercalate (params.map (·.name)) ++ ") " ++ body.source
  | .call callee args _ => callee.source ++ "(" ++ ", ".intercalate (Expr.sources args) ++ ")"
  | .array items _ => "[" ++ ", ".intercalate (Expr.sources items) ++ "]"
  | .index object key _ => "(" ++ object.source ++ "[" ++ key.source ++ "])"
  | .hash pairs _ => "\x7b" ++ ", ".intercalate (Expr.pairSources pairs) ++ "\x7d"

def Expr.sources : List Expr → List String
  | [] => []
  | e :: es => e.source :: Expr.sources es

def Expr.pairSources : List (Expr × Expr) → List String
  | [] => []
  | (k, v) :: ps => (k.source ++ ":" ++ v.source) :: Expr.pairSources ps

def Stmt.source : Stmt → String
  | .bind target value _ => "let " ++ target.name ++ " = " ++ value.source ++ ";"
  | .ret value _ => "return " ++ value.source ++ ";"
  | .expr value _ => value.source
  | .block body => body.source

/-- The statements follow each other with nothing between them. -/
def Stmt.joined : List Stmt → String
  | [] => ""
  | s :: ss => s.source ++ Stmt.joined ss

def Block.source : Block → String
  | .mk stmts _ => Stmt.joined stmts
end

/-- The program as one piece of text. -/
def Program.source (p : Program) : String :=
  Stmt.joined p

/-- The program with each statement on a line of its own. -/
def Program.lines (p : Program) : String :=
  "\n".intercalate (p.map Stmt.source)

end Monkey
