import Monkey.Command.Arguments
import Monkey.Dump.Syntax
import Monkey.Repl
import Monkey.Report
import Monkey.Syntax.SExpr

/-!
# The command line

What each command prints, what it complains about, and the status with which the program ends.
-/

namespace Monkey.Command

/-! ## Outcomes -/

/-- A complaint on the error channel. -/
inductive Notice where
  | line (text : String)
  | report (r : Report)

structure Outcome where
  status : Nat
  output : String
  notices : List Notice

def usage : String :=
  "usage: monkey tokenize [--format basic|debug|pretty] PATH\n" ++
  "       monkey parse [--format source|sexpr|debug] PATH\n" ++
  "       monkey run [--max-call-depth N] [--plain] PATH\n" ++
  "       monkey repl [--max-call-depth N]"

/-- The arguments ask for nothing that there is. -/
def misuse : Outcome :=
  ⟨2, "", [.line usage]⟩

/-- The file cannot be read, or is not UTF-8. -/
def unreadable : Outcome :=
  ⟨1, "", [.line "Failed to read the source file"]⟩

/-! ## Commands on a source -/

/-- A token or lexical error in a format: what is printed, or what is complained about. -/
def showItem (source : String) (lines : LineTable) : TokenFormat → Item → String ⊕ Notice
  | .basic, .ok t | .pretty, .ok t => .inl (t.listing lines)
  | .debug, .ok t => .inl t.dump.compact
  | .basic, .error e => .inr (.line (e.listing lines))
  | .debug, .error e => .inr (.line e.dump.compact)
  | .pretty, .error e => .inr (.report (e.report source))

def executeTokenize (format : TokenFormat) (source : String) : Outcome :=
  let stream := TokenStream.ofText source
  let items : List Item := stream.items ++ [.ok stream.final]
  let shown := items.map (showItem source (.ofText source) format)
  let printed := shown.filterMap Sum.getLeft?
  let notices := shown.filterMap Sum.getRight?
  ⟨if notices.isEmpty then 0 else 65, String.join (printed.map (· ++ "\n")), notices⟩

def complain (source : String) (plain : Bool) (errors : List SyntaxError) : List Notice :=
  let lines := LineTable.ofText source
  errors.map fun e => if plain then .line (e.listing lines) else .report (e.report source)

def showProgram : TreeFormat → Program → String
  | .source, p => p.lines
  | .sexpr, p => p.sexprs
  | .debug, p => p.dump.expanded ""

def executeParse (format : TreeFormat) (source : String) : Outcome :=
  let p := Monkey.parse source
  if p.errors.isEmpty then ⟨0, showProgram format p.program ++ "\n", []⟩
  else ⟨65, "", complain source false p.errors⟩

def executeRun (limit : Nat) (plain : Bool) (source : String) : Outcome :=
  let p := Monkey.parse source
  if p.errors.isEmpty then
    let (env, world) := World.empty.newEnv
    let (v, world) := p.program.run limit env world
    match v with
    | .signal (.fault f) =>
      let notice := if plain then .line (f.listing (.ofText source)) else .report (f.report source)
      ⟨70, world.output, [notice]⟩
    | _ => ⟨0, world.output, []⟩
  else ⟨65, "", complain source plain p.errors⟩

/-- A conversation over the whole standard input. -/
def executeRepl (limit : Nat) (input : ByteArray) : Outcome :=
  let (said, failure) := Repl.run limit none input
  let output := (String.fromUTF8? said).getD ""
  match failure with
  | none => ⟨0, output, []⟩
  | some _ => ⟨1, output, [.line "REPL input/output failed"]⟩

/-- The outcome of reading the bytes of a file, if there is such a file, as a source. -/
def withSource (file : Option ByteArray) (f : String → Outcome) : Outcome :=
  match file >>= String.fromUTF8? with
  | some source => f source
  | none => unreadable

/-- What a command does with the bytes of its file, if there is such a file, and of the standard
input. -/
def execute (file : Option ByteArray) (input : ByteArray) : Command → Outcome
  | tokenize _ format => withSource file (executeTokenize format)
  | parse _ format => withSource file (executeParse format)
  | run _ limit plain => withSource file (executeRun limit plain)
  | repl limit => executeRepl limit input
  | version => ⟨0, "monkey 0.1.0\n", []⟩
  | help => ⟨0, usage ++ "\n", []⟩

end Monkey.Command
