import Monkey.Parse.Construct
import Monkey.Token.Scan

/-!
# Programs and recovery

A program is parsed statement by statement. After a malformed statement the parser goes on behind
its semicolon, or at the next `let` or `return`; semicolons and statements inside braces that the
malformed statement opened belong to it and are passed over.
-/

namespace Monkey

namespace Cursor

/-- The place where the next statement begins, outside all braces but the first `depth`. -/
def synchronize (depth : Nat) : Nat → Cursor → Cursor
  | 0, c => c
  | n + 1, c =>
    if c.current.isEof then c
    else if c.current.kind = .semicolon ∧ c.nesting ≤ depth then c.advance
    else
      let c := c.advance
      if c.nesting ≤ depth ∧ (c.current.kind = .kwLet ∨ c.current.kind = .kwReturn) then c
      else synchronize depth n c

/-- The place where parsing goes on after the error `e` in a statement that began at nesting
`depth`. -/
def recover (c : Cursor) (depth : Nat) (e : SyntaxError) : Cursor :=
  (c.report e).synchronize depth c.left

/-- The well-formed statements among the next `n`, and the place behind them. -/
def statementsWithin : Nat → Cursor → List Stmt × Cursor
  | 0, c => ([], c)
  | n + 1, c =>
    if c.current.isEof then ([], c)
    else
      match Parse.statement.run c with
      | .ok s c' =>
        let (ss, last) := statementsWithin n c'.advance
        (s :: ss, last)
      | .error e c' => statementsWithin n (c'.recover c.nesting e)

/-- The well-formed statements up to the end, and the place reached. -/
def program (c : Cursor) : Program × Cursor :=
  statementsWithin c.left c

end Cursor

/-- What a source amounts to: its well-formed statements, and the errors in the rest. -/
structure Parsed where
  program : Program
  errors : List SyntaxError

def parseStream (s : TokenStream) : Parsed :=
  let (program, last) := (Cursor.ofStream s).program
  ⟨program, last.errors.toList⟩

def parse (text : String) : Parsed :=
  parseStream (.ofText text)

end Monkey
