import Monkey.Command

/-!
# The program

The outer layer: arguments, files and channels. How a report is drawn, under the name of its source,
is a parameter.
-/

namespace Monkey.Main

section

variable (draw : String → Report → String)

def complain (path : String) : Command.Notice → IO Unit
  | .line text => IO.eprintln text
  | .report r => IO.eprint (draw path r)

def finish (path : String) (o : Command.Outcome) : IO UInt32 := do
  IO.print o.output
  for notice in o.notices do
    complain draw path notice
  return o.status.toUInt32

end

/-- Answers the standard input line by line, as the lines come in. -/
partial def converse (s : Session) : IO Unit := do
  IO.print Repl.prompt
  (← IO.getStdout).flush
  let line ← (← IO.getStdin).getLine
  if line.isEmpty then return
  let (answer, s) := s.respond line
  for piece in answer do
    IO.print piece
  converse s

def readFile (path : String) : IO (Option ByteArray) :=
  try
    return some (← IO.FS.readBinFile path)
  catch _ =>
    return none

def start (draw : String → Report → String) (args : List String) : IO UInt32 := do
  match Command.ofArgs? (← IO.getEnv "MONKEY_MAX_CALL_DEPTH") args with
  | none => finish draw "" Command.misuse
  | some (.repl limit) =>
    try
      converse (.start limit)
      return 0
    catch e =>
      IO.eprintln e.toString
      return 1
  | some command =>
    match command.path? with
    | none => finish draw "" (command.execute none .empty)
    | some path => finish draw path (command.execute (← readFile path) .empty)

end Monkey.Main
