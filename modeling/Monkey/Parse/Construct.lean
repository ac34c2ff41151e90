import Monkey.Parse.Cursor
import Monkey.Text.Decimal

/-!
# Constructs

An expression is an operand and then operators, as long as they bind more tightly than the place
where the expression stands. A parser is called with the place at the first token of its construct,
and leaves it at the last one.

The parsers of this module are given the parser for the expressions inside them, and a bound on the
number of tokens left; every round of a loop uses up a token, so the bound does not cut a loop
short. The expression parser itself is built up from this by recursion on such a bound.
-/

namespace Monkey.Parse

variable (expr : Precedence → Parse Expr)

/-! ## Lists -/

def listTail : Nat → Parse (List Expr)
  | 0 => return []
  | n + 1 => do
    if ← accept .comma then
      advance
      let e ← expr .lowest
      return e :: (← listTail n)
    else
      return []

/-- Expressions with commas between them, up to and with the token `close`. -/
def list (n : Nat) (close : Kind) : Parse (List Expr) := do
  if ← accept close then
    return []
  advance
  let e ← expr .lowest
  let es ← listTail expr n
  expect close
  return e :: es

def paramsTail : Nat → Parse (List Ident)
  | 0 => return []
  | n + 1 => do
    if ← accept .comma then
      expect .ident
      let p ← currentIdent
      return p :: (← paramsTail n)
    else
      return []

/-- Identifiers with commas between them, up to and with the closing parenthesis. -/
def params (n : Nat) : Parse (List Ident) := do
  if ← accept .rightParen then
    return []
  expect .ident
  let p ← currentIdent
  let ps ← paramsTail n
  expect .rightParen
  return p :: ps

/-- Keys and values up to the closing brace; a comma may stand after the last pair. -/
def pairs : Nat → Parse (List (Expr × Expr))
  | 0 => do
    advance
    noOperand
  | n + 1 => do
    if (← peekKind) = .rightBrace then
      return []
    advance
    let key ← expr .lowest
    expect .colon
    advance
    let value ← expr .lowest
    if (← peekKind) ≠ .rightBrace then
      expect .comma
    return (key, value) :: (← pairs n)

/-! ## Statements -/

def letStmt : Parse Stmt := do
  let start := (← current).span
  expect .ident
  let target ← currentIdent
  expect .assign
  advance
  let value ← expr .lowest
  let _ ← accept .semicolon
  return .bind target value (start.merge (← current).span)

def returnStmt : Parse Stmt := do
  let start := (← current).span
  advance
  let value ← expr .lowest
  let _ ← accept .semicolon
  return .ret value (start.merge (← current).span)

/-- The span is that of the expression, without the semicolon. -/
def exprStmt : Parse Stmt := do
  let value ← expr .lowest
  let _ ← accept .semicolon
  return .expr value value.span

def stmt : Parse Stmt := do
  match (← current).kind with
  | .kwLet => letStmt expr
  | .kwReturn => returnStmt expr
  | _ => exprStmt expr

/-- The source ended inside a block. -/
def unclosed {α : Type} : Parse α := do
  throw ⟨.unexpected .rightBrace .eof, (← current).span⟩

def stmts : Nat → Parse (List Stmt)
  | 0 => unclosed
  | n + 1 => do
    match (← current).kind with
    | .rightBrace => return []
    | .eof => unclosed
    | _ =>
      let s ← stmt expr
      advance
      return s :: (← stmts n)

def block (n : Nat) : Parse Block := do
  let start := (← current).span
  advance
  let ss ← stmts expr n
  return ⟨ss, start.merge (← current).span⟩

/-! ## Operands -/

def integer : Parse Expr := do
  let t ← current
  match Text.int64? t.lexeme with
  | some i => return .int i t.span
  | none => throw ⟨.badInteger t.lexeme, t.span⟩

def unary (op : UnaryOp) : Parse Expr := do
  let start := (← current).span
  advance
  let operand ← expr .unary
  return .unary op operand (start.merge operand.span)

/-- Parentheses leave no trace in the tree. -/
def grouped : Parse Expr := do
  advance
  let inner ← expr .lowest
  expect .rightParen
  return inner

/-- A conditional; `else if` is an `else` block with a conditional as its only statement. -/
def cond (n : Nat) : Nat → Parse Expr
  | 0 => noOperand
  | m + 1 => do
    let start := (← current).span
    expect .leftParen
    advance
    let test ← expr .lowest
    expect .rightParen
    expect .leftBrace
    let yes ← block expr n
    if ← accept .kwElse then
      if ← accept .kwIf then
        let nested ← cond n m
        let no := ⟨[.expr nested nested.span], nested.span⟩
        return .cond test yes (some no) (start.merge (← current).span)
      else
        expect .leftBrace
        let no ← block expr n
        return .cond test yes (some no) (start.merge (← current).span)
    else
      return .cond test yes none (start.merge (← current).span)

def function (n : Nat) : Parse Expr := do
  let start := (← current).span
  expect .leftParen
  let ps ← params n
  expect .leftBrace
  let body ← block expr n
  return .fn ps body (start.merge (← current).span)

def array (n : Nat) : Parse Expr := do
  let start := (← current).span
  let items ← list expr n .rightBracket
  return .array items (start.merge (← current).span)

def hash (n : Nat) : Parse Expr := do
  let start := (← current).span
  let ps ← pairs expr n
  expect .rightBrace
  return .hash ps (start.merge (← current).span)

def operand (n : Nat) : Parse Expr := do
  let t ← current
  match t.kind with
  | .ident => return .ident t.lexeme t.span
  | .integer => integer
  | .string => return .str t.lexeme t.span
  | .kwTrue => return .bool true t.span
  | .kwFalse => return .bool false t.span
  | .bang => unary expr .not
  | .minus => unary expr .negate
  | .leftParen => grouped expr
  | .kwIf => cond expr n (n + 1)
  | .kwFn => function expr n
  | .leftBracket => array expr n
  | .leftBrace => hash expr n
  | _ => noOperand

/-! ## Operators -/

def call (n : Nat) (callee : Expr) : Parse Expr := do
  let args ← list expr n .rightParen
  return .call callee args (callee.span.merge (← current).span)

def index (object : Expr) : Parse Expr := do
  advance
  let key ← expr .lowest
  expect .rightBracket
  return .index object key (object.span.merge (← current).span)

def binary (op : BinaryOp) (precedence : Precedence) (lhs : Expr) : Parse Expr := do
  advance
  let rhs ← expr precedence
  return .binary op lhs rhs (lhs.span.merge rhs.span)

/-- What the current token makes of the operand on its left. -/
def operator (n : Nat) (lhs : Expr) : Parse Expr := do
  let kind := (← current).kind
  match kind with
  | .leftParen => call expr n lhs
  | .leftBracket => index expr lhs
  | _ =>
    match BinaryOp.ofKind? kind with
    | some op => binary expr op (.ofKind kind) lhs
    | none => return lhs

/-- The operators after an operand that bind more tightly than `p`. -/
def operators (n : Nat) (p : Precedence) : Nat → Expr → Parse Expr
  | 0, lhs => return lhs
  | m + 1, lhs => do
    if p < .ofKind (← peekKind) then
      advance
      let lhs ← operator expr n lhs
      operators n p m lhs
    else
      return lhs

end Parse

/-! ## Recursion -/

namespace Parse

/-- An expression among the next `n` tokens, of operators that bind more tightly than `p`. -/
def expressionWithin : Nat → Precedence → Parse Expr
  | 0, _ => noOperand
  | n + 1, p => do
    let lhs ← operand (expressionWithin n) n
    operators (expressionWithin n) n p n lhs

/-- An expression of operators that bind more tightly than `p`. -/
def expression (p : Precedence) : Parse Expr := do
  expressionWithin (← get).left p

def statement : Parse Stmt := do
  stmt (expressionWithin (← get).left)

end Monkey.Parse
