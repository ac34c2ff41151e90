import Monkey.Eval
import Monkey.Parse.Recovery
import Monkey.Value.Text

/-!
# The read-eval-print loop

Each line of the input is a program of its own. All of them run in one environment, so a name that
one line binds is known to the lines after it. A line with syntax errors is not run at all.
-/

namespace Monkey

/-! ## Sessions -/

/-- What lasts from one line to the next. -/
structure Session where
  limit : Nat
  env : Env
  world : World

namespace Session

def start (limit : Nat) : Session :=
  let (env, world) := World.empty.newEnv
  ⟨limit, env, world⟩

/-- Whether a program is empty or ends with a binding, so that its value says nothing. -/
def bindsOnly (p : Program) : Bool :=
  match p.getLast? with
  | none | some (.bind ..) => true
  | some _ => false

/-- What is written in answer to a line, in pieces, and the session after it. -/
def respond (s : Session) (line : String) : List String × Session :=
  let p := parse line
  if p.errors.isEmpty then
    let (v, world) := p.program.run s.limit s.env s.world
    let (output, world) := world.takeOutput
    let shown := if v.isFault || !bindsOnly p.program then [v.text, "\n"] else []
    (output :: shown, { s with world })
  else
    ("parser errors:\n" :: p.errors.map fun e => "\t" ++ e.cause.message ++ "\n", s)

end Session

/-! ## Input and output -/

namespace Repl

def prompt : String := ">> "

/-- Where the answers go: the bytes taken so far, and how many more there is room for, if that is
limited. -/
structure Sink where
  taken : ByteArray
  room : Option Nat

inductive Failure where
  | sinkFull
  /-- A line that is not UTF-8. -/
  | notText
deriving DecidableEq

/-- A conversation goes on until something fails; what was said before that has been said. -/
abbrev Talk := EStateM Failure Sink

/-- Says as much of a text as there is room for. -/
def say (text : String) : Talk Unit := do
  let sink ← get
  let bytes := text.toUTF8
  match sink.room with
  | none => set { sink with taken := sink.taken ++ bytes }
  | some room =>
    set (Sink.mk (sink.taken ++ bytes.extract 0 room) (some (room - bytes.size)))
    if room < bytes.size then
      throw .sinkFull

def sayAll : List String → Talk Unit
  | [] => return ()
  | t :: ts => do
    say t
    sayAll ts

/-- The lines of an input, each with its line feed. -/
def lines : List UInt8 → List (List UInt8)
  | [] => []
  | b :: bs =>
    if b = 10 then [b] :: lines bs
    else
      match lines bs with
      | [] => [[b]]
      | l :: ls => (b :: l) :: ls

/-- Answers line after line, a prompt before each and one before the end of the input. -/
def converse (s : Session) : List (List UInt8) → Talk Unit
  | [] => say prompt
  | l :: ls => do
    say prompt
    match String.fromUTF8? ⟨l.toArray⟩ with
    | none => throw .notText
    | some line =>
      let (answer, s) := s.respond line
      sayAll answer
      converse s ls

/-- The whole conversation over an input: the bytes said, and what went wrong, if anything did. -/
def run (limit : Nat) (room : Option Nat) (input : ByteArray) : ByteArray × Option Failure :=
  match converse (.start limit) (lines input.toList) ⟨.empty, room⟩ with
  | .ok _ sink => (sink.taken, none)
  | .error e sink => (sink.taken, some e)

end Repl

end Monkey
