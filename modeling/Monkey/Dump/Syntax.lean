import Monkey.Dump
import Monkey.Syntax
import Monkey.Syntax.Error
import Monkey.Text.Decimal

/-!
# Dumps of tokens, trees and errors in a source
-/

namespace Monkey

open Dump (atom record tuple list)

def Dump.ofString (s : String) : Dump :=
  atom (Text.quoteString s)

def Dump.ofChar (c : Char) : Dump :=
  atom (Text.quoteChar c)

def Dump.ofNat (n : Nat) : Dump :=
  atom (toString n)

def Dump.ofBool (b : Bool) : Dump :=
  atom (toString b)

def Dump.ofInt64 (i : Int64) : Dump :=
  atom (Text.ofInt64 i)

/-! ## Tokens -/

def Span.dump (s : Span) : Dump :=
  record "Span"
    [("start", tuple "SpanIndex" [.ofNat s.start.toNat]),
      ("length", tuple "SpanLength" [.ofNat s.length.toNat])]

def Token.dump (t : Token) : Dump :=
  record "Token" [("kind", atom t.kind.name), ("lexeme", .ofString t.lexeme), ("span", t.span.dump)]

/-! ## Errors -/

def LexicalCause.dump : LexicalCause → Dump
  | unrecognized c => tuple "Unrecognized" [.ofChar c]
  | unclosedString => atom "UnclosedString"
  | unknownEscape c => tuple "UnknownEscape" [.ofChar c]

def LexicalError.dump (e : LexicalError) : Dump :=
  record "LexicalError" [("kind", e.cause.dump), ("span", e.span.dump)]

def SyntaxError.dump (e : SyntaxError) : Dump :=
  let cause :=
    match e.cause with
    | .unexpected expected actual =>
      record "UnexpectedToken" [("expected", atom expected.name), ("actual", atom actual.name)]
    | .noOperand kind => tuple "NoPrefixParseFunction" [atom kind.name]
    | .badInteger lexeme => tuple "InvalidInteger" [.ofString lexeme]
    | .lexical cause => tuple "LexicalError" [(LexicalError.mk cause e.span).dump]
  record "ParserError" [("kind", cause), ("span", e.span.dump)]

/-! ## Trees -/

def Ident.dump (i : Ident) : Dump :=
  record "Ident" [("name", .ofString i.name), ("span", i.span.dump)]

/-- The dump of an expression, from that of its own part. -/
def Dump.node (s : Span) (d : Dump) : Dump :=
  record "Expression" [("node", d), ("span", s.dump)]

mutual
def Expr.dump : Expr → Dump
  | .ident name s => .node s (tuple "Identifier" [(Ident.mk name s).dump])
  | .int value s => .node s (tuple "Integer" [.ofInt64 value])
  | .bool value s => .node s (tuple "Boolean" [.ofBool value])
  | .str value s => .node s (tuple "StringLiteral" [.ofString value])
  | .unary op operand s =>
    .node s (record "Prefix" [("operator", atom op.name), ("rhs", operand.dump)])
  | .binary op lhs rhs s =>
    .node s (record "Infix" [("operator", atom op.name), ("lhs", lhs.dump), ("rhs", rhs.dump)])
  | .cond test yes none s =>
    .node s (record "If"
      [("condition", test.dump), ("consequence", yes.dump), ("alternative", atom "None")])
  | .cond test yes (some no) s =>
    .node s (record "If"
      [("condition", test.dump), ("consequence", yes.dump),
        ("alternative", tuple "Some" [no.dump])])
  | .fn params body s =>
    .node s (tuple "Function" [record "FunctionLiteral"
      [("parameters", list (params.map Ident.dump)), ("body", body.dump)]])
  | .call callee args s =>
    .node s (record "Call" [("callee", callee.dump), ("arguments", list (Expr.dumps args))])
  | .array items s => .node s (tuple "Array" [list (Expr.dumps items)])
  | .index object key s => .node s (record "Index" [("object", object.dump), ("index", key.dump)])
  | .hash pairs s => .node s (tuple "Hash" [list (Expr.pairDumps pairs)])

def Expr.dumps : List Expr → List Dump
  | [] => []
  | e :: es => e.dump :: Expr.dumps es

def Expr.pairDumps : List (Expr × Expr) → List Dump
  | [] => []
  | (k, v) :: ps => tuple "" [k.dump, v.dump] :: Expr.pairDumps ps

def Stmt.dump : Stmt → Dump
  | .bind target value s =>
    tuple "Let" [record "LetStatement"
      [("name", target.dump), ("value", value.dump), ("span", s.dump)]]
  | .ret value s =>
    tuple "Return" [record "ReturnStatement" [("value", value.dump), ("span", s.dump)]]
  | .expr value s =>
    tuple "Expression" [record "ExpressionStatement" [("expr", value.dump), ("span", s.dump)]]
  | .block body => tuple "Block" [body.dump]

def Stmt.dumps : List Stmt → List Dump
  | [] => []
  | s :: ss => s.dump :: Stmt.dumps ss

def Block.dump : Block → Dump
  | .mk stmts s =>
    record "BlockStatement" [("statements", list (Stmt.dumps stmts)), ("span", s.dump)]
end

def Program.dump (p : Program) : Dump :=
  record "Program" [("statements", list (Stmt.dumps p))]

end Monkey
