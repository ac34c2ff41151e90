import Monkey.Syntax
import Monkey.Text.Decimal
import Monkey.Text.Quoted

/-!
# Trees as nested lists

A node with parts is written in parentheses, its name first and then its parts; names, numbers and
quoted strings stand for themselves.
-/

namespace Monkey

mutual
def Expr.sexpr : Expr → String
  | .ident name _ => name
  | .int value _ => Text.ofInt64 value
  | .bool value _ => toString value
  | .str value _ => Text.quoteString value
  | .unary op operand _ => "(" ++ op.symbol ++ " " ++ operand.sexpr ++ ")"
  | .binary op lhs rhs _ => "(" ++ op.symbol ++ " " ++ lhs.sexpr ++ " " ++ rhs.sexpr ++ ")"
  | .cond test yes none _ => "(if " ++ test.sexpr ++ " " ++ yes.sexpr ++ ")"
  | .cond test yes (some no) _ =>
    "(if " ++ test.sexpr ++ " " ++ yes.sexpr ++ " " ++ no.sexpr ++ ")"
  | .fn params body _ =>
    "(fn (" ++ " ".intercalate (params.map (·.name)) ++ ") " ++ body.sexpr ++ ")"
  | .call callee args _ => "(call " ++ callee.sexpr ++ Expr.sexprs args ++ ")"
  | .array items _ => "(array" ++ Expr.sexprs items ++ ")"
  | .index object key _ => "(index " ++ object.sexpr ++ " " ++ key.sexpr ++ ")"
  | .hash pairs _ => "(hash" ++ Expr.pairSexprs pairs ++ ")"

/-- Each expression after a space. -/
def Expr.sexprs : List Expr → String
  | [] => ""
  | e :: es => " " ++ e.sexpr ++ Expr.sexprs es

def Expr.pairSexprs : List (Expr × Expr) → String
  | [] => ""
  | (k, v) :: ps => " (" ++ k.sexpr ++ " " ++ v.sexpr ++ ")" ++ Expr.pairSexprs ps

def Stmt.sexpr : Stmt → String
  | .bind target value _ => "(let " ++ target.name ++ " " ++ value.sexpr ++ ")"
  | .ret value _ => "(return " ++ value.sexpr ++ ")"
  | .expr value _ => value.sexpr
  | .block body => body.sexpr

def Stmt.sexprs : List Stmt → String
  | [] => ""
  | s :: ss => " " ++ s.sexpr ++ Stmt.sexprs ss

def Block.sexpr : Block → String
  | .mk stmts _ => "(block" ++ Stmt.sexprs stmts ++ ")"
end

/-- The program with each statement on a line of its own. -/
def Program.sexprs (p : Program) : String :=
  "\n".intercalate (p.map Stmt.sexpr)

end Monkey
