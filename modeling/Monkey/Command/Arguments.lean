import Monkey.Eval

/-!
# Arguments of the command line

Which command a list of arguments asks for. A list that asks for nothing there is gives none.
-/

namespace Monkey

inductive TokenFormat where
  | basic | debug | pretty
deriving DecidableEq

inductive TreeFormat where
  | source | sexpr | debug
deriving DecidableEq

inductive Command where
  | tokenize (path : String) (format : TokenFormat)
  | parse (path : String) (format : TreeFormat)
  /-- Faults and syntax errors are reported beside the source, or as lines if `plain`. -/
  | run (path : String) (limit : Nat) (plain : Bool)
  | repl (limit : Nat)
  | version
  | help
deriving DecidableEq

namespace Command

/-! ## Arguments -/

/-- The options that come with a value. -/
inductive Valued where
  | format
  | callDepth
deriving DecidableEq

def Valued.spelling : Valued → String
  | format => "--format"
  | callDepth => "--max-call-depth"

/-- The arguments of a command, sorted and read; `φ` is the type of its formats. -/
structure Given (φ : Type) where
  path : Option String
  format : Option φ
  limit : Option Nat
  plain : Bool
  help : Bool

def Given.nothing {φ : Type} : Given φ :=
  ⟨none, none, none, false, false⟩

/-- Which arguments a command takes. -/
structure Takes (φ : Type) where
  path : Bool
  /-- How a format is read, by a command that takes one. -/
  format : Option (String → Option φ)
  callDepth : Bool
  plain : Bool

def Takes.valued {φ : Type} (t : Takes φ) : List Valued :=
  (if t.format.isSome then [.format] else []) ++ (if t.callDepth then [.callDepth] else [])

/-! ## Values -/

def tokenFormat? : String → Option TokenFormat
  | "basic" => some .basic
  | "debug" => some .debug
  | "pretty" => some .pretty
  | _ => none

def treeFormat? : String → Option TreeFormat
  | "source" => some .source
  | "sexpr" => some .sexpr
  | "debug" => some .debug
  | _ => none

/-- A numeral of at most 64 bits, perhaps after a plus sign. -/
def limitOfText? (text : String) : Option Nat := do
  let digits := match text.toList with
    | '+' :: ds => ds
    | ds => ds
  let n ← Text.natOfDigits? digits
  if n < UInt64.size then some n else none

/-- The given arguments with one option set to what a text says; none if the text is no value of it,
or if it is set already. -/
def Given.setValue? {φ : Type} (t : Takes φ) (g : Given φ) (text : String) :
    Valued → Option (Given φ)
  | .format => do
    let v ← (← t.format) text
    if g.format.isSome then none else some { g with format := some v }
  | .callDepth => do
    let n ← limitOfText? text
    if g.limit.isSome then none else some { g with limit := some n }

/-- The given arguments with the path; none if there is one already, or none is taken, or it is
empty. -/
def Given.setPath? {φ : Type} (t : Takes φ) (g : Given φ) (p : String) : Option (Given φ) :=
  if !t.path || g.path.isSome || p.isEmpty then none else some { g with path := some p }

/-! ## Sorting -/

/-- Whether an argument looks like an option. -/
def isOption (arg : String) : Bool :=
  arg.startsWith "-" && arg ≠ "-"

/-- Whether an argument asks for help. Of letters after a single dash the first decides. -/
def isHelp (arg : String) : Bool :=
  arg = "--help" || arg.startsWith "-h"

def isVersion (arg : String) : Bool :=
  arg = "--version" || arg.startsWith "-V"

/-- Sorts the arguments behind `--`, which are all paths. -/
def sortPaths {φ : Type} (t : Takes φ) : List String → Given φ → Option (Given φ)
  | [], g => some g
  | a :: as, g => do sortPaths t as (← g.setPath? t a)

/-- The option that an argument is, with the value after `=` if it has one. -/
def valued? {φ : Type} (t : Takes φ) (arg : String) : Option (Valued × Option String) :=
  t.valued.findSome? fun o =>
    if arg = o.spelling then some (o, none)
    else if arg.startsWith (o.spelling ++ "=") then
      some (o, some (String.ofList (arg.toList.drop (o.spelling.length + 1))))
    else none

/-- Sorts the arguments; none if one is unknown, is given twice, or lacks a value that it can have.
A request for help ends it, so that no fault behind it counts. -/
def sort {φ : Type} (t : Takes φ) : List String → Given φ → Option (Given φ)
  | [], g => some g
  | a :: as, g =>
    if a = "--" then sortPaths t as g
    else if isHelp a then some { g with help := true }
    else
      match valued? t a with
      | some (o, some v) => do sort t as (← g.setValue? t v o)
      | some (o, none) =>
        match as with
        | [] => none
        | v :: as => if isOption v then none else do sort t as (← g.setValue? t v o)
      | none =>
        if t.plain && a = "--plain" then
          if g.plain then none else sort t as { g with plain := true }
        else if isOption a then none
        else do sort t as (← g.setPath? t a)

/-! ## Commands -/

/-- The limit on nested calls: what is given, else the setting, else the default. -/
def limit? (given : Option Nat) (setting : Option String) : Option Nat :=
  match given, setting with
  | some n, _ => some n
  | none, some text => limitOfText? text
  | none, none => some defaultLimit

/-- The command that the arguments ask for, where `setting` is what the environment says of the
limit on nested calls. -/
def ofArgs? (setting : Option String) : List String → Option Command
  | "tokenize" :: as => do
    let g ← sort ⟨true, some tokenFormat?, false, false⟩ as .nothing
    if g.help then return help
    return tokenize (← g.path) (g.format.getD .basic)
  | "parse" :: as => do
    let g ← sort ⟨true, some treeFormat?, false, false⟩ as .nothing
    if g.help then return help
    return parse (← g.path) (g.format.getD .source)
  | "run" :: as => do
    let g ← sort ⟨true, none, true, true⟩ as (.nothing : Given Empty)
    if g.help then return help
    return run (← g.path) (← limit? g.limit setting) g.plain
  | "repl" :: as => do
    let g ← sort ⟨false, none, true, false⟩ as (.nothing : Given Empty)
    if g.help then return help
    return repl (← limit? g.limit setting)
  | ["help"] | ["help", "tokenize"] | ["help", "parse"] | ["help", "run"] | ["help", "repl"]
  | ["help", "help"] => some help
  | a :: _ => if isHelp a then some help else if isVersion a then some version else none
  | [] => none

/-- The file that a command reads. -/
def path? : Command → Option String
  | tokenize path _ | parse path _ | run path _ _ => some path
  | repl _ | version | help => none

end Command

end Monkey
