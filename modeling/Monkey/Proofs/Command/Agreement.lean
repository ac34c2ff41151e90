import Monkey.Command
import Monkey.Proofs.Eval.Written
import Monkey.Proofs.Repl.Session
import Monkey.Proofs.Source.Lines
import Monkey.Proofs.Text.Bytes

/-!
# How the commands agree

A source with a lexical error is refused by all three commands on sources, and one with a syntax
error by those that parse it. Only a source that is refused by none is run, and what the run prints
is what `puts` is called with until the program ends or a fault comes up.
-/

namespace Monkey

/-! ## What a program prints -/

/-- The value of a program in a new environment, and the world that it leaves. -/
def Program.runNew (limit : Nat) (p : Program) : Value × World :=
  p.run limit World.empty.newEnv.1 World.empty.newEnv.2

namespace Machine

/-- The start of the evaluation of a program in a new environment. -/
def State.startNew (p : Program) : State :=
  .start World.empty.newEnv.1 p World.empty.newEnv.2

/-- The evaluation of the program does nothing more from this state on: here the fault comes up that
it ends with, or else it has ended. -/
structure Stops (limit : Nat) (p : Program) (u : State) : Prop where
  reaches : Reaches limit (.startNew p) u
  world : (p.runNew limit).2 = u.world
  fault : ∀ f, (p.runNew limit).1 = .signal (.fault f) → Faults limit (.startNew p) u f
  halted : (∀ f, (p.runNew limit).1 ≠ .signal (.fault f)) → u.step limit = none

theorem exists_stops (limit : Nat) (p : Program) : ∃ u, Stops limit p u := by
  by_cases hf : ∃ f, (p.runNew limit).1 = .signal (.fault f)
  · obtain ⟨f, hf⟩ := hf
    obtain ⟨u, hu, hworld⟩ := run_faults (World.Reachable.plain (.newEnv .empty)) hf
    exact ⟨u, {
      reaches := hu.reaches
      world := hworld
      fault := fun g hg => by
        cases hf.symm.trans hg
        exact hu
      halted := fun hnone => absurd hf (hnone f) }⟩
  · let m := Stmt.evalAll (applyWithin limit limit) World.empty.newEnv.1 p .null
    obtain ⟨-, -, hworld⟩ := outcome_ended m World.empty.newEnv.2 0
    exact ⟨_, {
      reaches := start_reaches limit World.empty.newEnv.1 p World.empty.newEnv.2
      world := hworld.symm
      fault := fun f h => absurd ⟨f, h⟩ hf
      halted := fun _ => step_ended limit 0 _ }⟩

end Machine

/-! ## Outcomes -/

namespace Command

variable {source : String}

section Tokens

variable (format : TokenFormat) {lines : LineTable}

theorem getRight?_showItem_ok (t : Token) :
    (showItem source lines format (.ok t)).getRight? = none := by
  cases format <;> rfl

theorem getRight?_showItem_error (e : LexicalError) :
    ∃ notice, (showItem source lines format (.error e)).getRight? = some notice := by
  cases format <;> exact ⟨_, rfl⟩

theorem executeTokenize_of_error {e : LexicalError}
    (he : .error e ∈ (TokenStream.ofText source).items) :
    (executeTokenize format source).status = 65 := by
  refine if_neg fun hempty => ?_
  have hshown : ∃ notice, (showItem source (.ofText source) format (.error e)).getRight? =
      some notice := getRight?_showItem_error format e
  obtain ⟨notice, hnotice⟩ := hshown
  have hnone := List.filterMap_eq_nil_iff.mp (List.isEmpty_iff.mp hempty) _
    (List.mem_map_of_mem (List.mem_append_left _ he))
  rw [hnotice] at hnone
  cases hnone

theorem executeTokenize_of_ok (h : ∀ e, .error e ∉ (TokenStream.ofText source).items) :
    (executeTokenize format source).status = 0 := by
  refine if_pos (List.isEmpty_iff.mpr (List.filterMap_eq_nil_iff.mpr fun shown hshown => ?_))
  obtain ⟨i, hi, rfl⟩ := List.mem_map.mp hshown
  cases i with
  | ok t => exact getRight?_showItem_ok format t
  | error e =>
      rcases List.mem_append.mp hi with hi | hi
      · exact absurd hi (h e)
      · cases List.mem_singleton.mp hi

theorem executeTokenize_status_iff : (executeTokenize format source).status = 65 ↔
    ∃ e, .error e ∈ (TokenStream.ofText source).items := by
  refine ⟨fun h => ?_, fun ⟨e, he⟩ => executeTokenize_of_error format he⟩
  by_contra hnone
  rw [executeTokenize_of_ok format fun e he => hnone ⟨e, he⟩] at h
  cases h

end Tokens

theorem executeParse_of_errors (format : TreeFormat) (h : (Monkey.parse source).errors ≠ []) :
    executeParse format source = ⟨65, "", complain source false (Monkey.parse source).errors⟩ := by
  rw [executeParse, if_neg (by simpa using h)]

theorem executeParse_of_errors_nil (format : TreeFormat) (h : (Monkey.parse source).errors = []) :
    (executeParse format source).status = 0 := by
  rw [executeParse, if_pos (by simpa using h)]

theorem executeRun_of_errors (limit : Nat) (plain : Bool) (h : (Monkey.parse source).errors ≠ []) :
    executeRun limit plain source =
      ⟨65, "", complain source plain (Monkey.parse source).errors⟩ := by
  rw [executeRun, if_neg (by simpa using h)]

theorem executeRun_of_errors_nil (limit : Nat) (plain : Bool)
    (h : (Monkey.parse source).errors = []) :
    (executeRun limit plain source).output = ((Monkey.parse source).program.runNew limit).2.output ∧
      ((executeRun limit plain source).status = 70 ∧
          (∃ f, ((Monkey.parse source).program.runNew limit).1 = .signal (.fault f)) ∨
        (executeRun limit plain source).status = 0 ∧
          ∀ f, ((Monkey.parse source).program.runNew limit).1 ≠ .signal (.fault f)) := by
  rw [executeRun, if_pos (by simpa using h), Program.runNew]
  generalize (Monkey.parse source).program = p
  dsimp only
  split
  · rename_i f hf
    exact ⟨rfl, .inl ⟨rfl, f, hf⟩⟩
  · rename_i hv
    exact ⟨rfl, .inr ⟨rfl, hv⟩⟩

/-- A lexical error is never lost. -/
theorem errors_ne_nil_of_error (hsize : source.utf8ByteSize < UInt32.size) {e : LexicalError}
    (he : .error e ∈ (TokenStream.ofText source).items) : (Monkey.parse source).errors ≠ [] :=
  List.ne_nil_of_mem (mem_parseStream_errors (fun _ => not_isEof_of_mem_scan hsize) he)

theorem withSource_eq {file : ByteArray} (h : String.fromUTF8? file = some source)
    (f : String → Outcome) : withSource (some file) f = f source := by
  have hread : some file >>= String.fromUTF8? = some source := h
  simp only [withSource, hread]

/-- On a file that is UTF-8: `tokenize` refuses it if it has a lexical error, and then `parse` and
`run` do so too. These two refuse the same files, and of such a file `run` only lists the errors.
Otherwise the status of `run` tells whether the program ends with a fault in a new environment, and
the output is what `puts` was called with until it stopped. -/
theorem execute_agrees {file : ByteArray} (hsource : String.fromUTF8? file = some source)
    (hsize : file.size < UInt32.size - 1) (input : ByteArray) (path : String)
    (format : TokenFormat) (format' : TreeFormat) (limit : Nat) (plain : Bool) :
    let tokenized := execute (some file) input (.tokenize path format)
    let parsed := execute (some file) input (.parse path format')
    let ran := execute (some file) input (.run path limit plain)
    let p := (Monkey.parse source).program
    (tokenized.status = 65 ↔ ∃ e, .error e ∈ (TokenStream.ofText source).items) ∧
    (tokenized.status = 65 → parsed.status = 65 ∧ ran.status = 65) ∧
    (parsed.status = 65 ↔ ran.status = 65) ∧
    (ran.status = 65 → ran = ⟨65, "", complain source plain (Monkey.parse source).errors⟩) ∧
    (ran.status ≠ 65 → parsed.status = 0 ∧
      (ran.status = 70 ↔ ∃ f, (p.runNew limit).1 = .signal (.fault f)) ∧
      (ran.status = 0 ↔ ∀ f, (p.runNew limit).1 ≠ .signal (.fault f)) ∧
      ∃ u calls, Machine.Stops limit p u ∧ Machine.Puts limit (.startNew p) calls u ∧
        ran.output = String.join (calls.map Builtin.puts.written)) := by
  intro tokenized parsed ran p
  have htokenized : tokenized = executeTokenize format source := withSource_eq hsource _
  have hparsed : parsed = executeParse format' source := withSource_eq hsource _
  have hran : ran = executeRun limit plain source := withSource_eq hsource _
  have hlexical : (∃ e, .error e ∈ (TokenStream.ofText source).items) →
      (Monkey.parse source).errors ≠ [] := fun ⟨e, he⟩ => by
    have hfile : source.utf8ByteSize = file.size :=
      congrArg ByteArray.size (toUTF8_of_fromUTF8? hsource)
    exact errors_ne_nil_of_error (by omega) he
  rw [htokenized, hparsed, hran, executeTokenize_status_iff]
  refine ⟨Iff.rfl, ?_⟩
  by_cases herrors : (Monkey.parse source).errors = []
  · obtain ⟨houtput, hstatus⟩ := executeRun_of_errors_nil limit plain herrors
    rw [executeParse_of_errors_nil format' herrors]
    obtain ⟨u, hu⟩ := Machine.exists_stops limit p
    obtain ⟨calls, hcalls⟩ := hu.reaches.exists_puts
    have hputs : (executeRun limit plain source).output =
        String.join (calls.map Builtin.puts.written) := by
      rw [houtput, hu.world, hcalls.output_eq]
      exact String.empty_append
    have hnot : (executeRun limit plain source).status ≠ 65 := by
      rcases hstatus with ⟨hs, -⟩ | ⟨hs, -⟩ <;> rw [hs] <;> decide
    refine ⟨fun h => absurd herrors (hlexical h), ⟨nofun, fun h => absurd h hnot⟩,
      fun h => absurd h hnot, fun _ => ⟨rfl, ?_, ?_, u, calls, hu, hcalls, hputs⟩⟩
    all_goals rcases hstatus with ⟨hs, f, hf⟩ | ⟨hs, hf⟩ <;> rw [hs]
    · exact ⟨fun _ => ⟨f, hf⟩, fun _ => rfl⟩
    · exact ⟨nofun, fun ⟨f, h⟩ => absurd h (hf f)⟩
    · exact ⟨nofun, fun h => absurd hf (h f)⟩
    · exact ⟨fun _ => hf, fun _ => rfl⟩
  · rw [executeParse_of_errors format' herrors, executeRun_of_errors limit plain herrors]
    exact ⟨fun _ => ⟨rfl, rfl⟩, Iff.rfl, fun _ => rfl, fun hne => absurd rfl hne⟩

/-- The third of four statements divides by zero. -/
theorem execute_agrees_division :
    let source := "puts(1, 2); puts([]); 1 / 0; puts(3)"
    let file := source.toUTF8
    let p := (Monkey.parse source).program
    String.fromUTF8? file = some source ∧ file.size < UInt32.size - 1 ∧
      (execute (some file) .empty (.parse "a.mk" .sexpr)).status = 0 ∧
      (execute (some file) .empty (.run "a.mk" 1 true)).status = 70 ∧
      (∃ f, (p.runNew 1).1 = .signal (.fault f)) ∧
      ∃ u calls, Machine.Stops 1 p u ∧ Machine.Puts 1 (.startNew p) calls u ∧
        String.join (calls.map Builtin.puts.written) = "1\n2\n[]\n" := by
  intro source file p
  have hsource : String.fromUTF8? file = some source := dif_pos source.isValidUTF8
  have hsize : file.size < UInt32.size - 1 := by decide
  have hran : execute (some file) .empty (.run "a.mk" 1 true) = executeRun 1 true source :=
    withSource_eq hsource _
  have hstatus : (executeRun 1 true source).status = 70 := by decide +kernel
  have houtput : (executeRun 1 true source).output = "1\n2\n[]\n" := by decide +kernel
  obtain ⟨-, -, -, -, hrun⟩ :=
    execute_agrees hsource hsize .empty "a.mk" .basic .sexpr 1 true
  rw [hran, hstatus, houtput] at hrun
  obtain ⟨hparsed, hfault, -, u, calls, hu, hcalls, hputs⟩ := hrun (by decide)
  exact ⟨hsource, hsize, hparsed, by rw [hran, hstatus], hfault.mp rfl, u, calls, hu, hcalls,
    hputs.symm⟩

end Command

end Monkey
