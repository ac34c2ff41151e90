import Monkey.Proofs.Eval.Sequence
import Monkey.Proofs.Parse.Alike
import Monkey.Proofs.Parse.Lexical
import Monkey.Proofs.Parse.Sequence
import Monkey.Proofs.Repl.Session
import Monkey.Proofs.Token.Coverage
import Monkey.Proofs.Token.Lines

/-!
# Line by line, or all at once

Lines that each stand for themselves can be given to a session one by one, or be run together as one
program.
-/

namespace Monkey

open Cursor (Detached)

/-! ## Tokens of lines -/

/-- The line is parsed alone without an error, and it is empty or ends with a semicolon. -/
structure SelfContained (line : String) : Prop where
  ends : EndsLine line
  errors : (parse line).errors = []
  closed : scan line = [] ∨ ∃ t : Token, (scan line).getLast? = some (.ok t) ∧ t.kind = .semicolon

theorem not_isEof_of_mem_scan {text : String} (hsize : text.utf8ByteSize < UInt32.size) {t : Token}
    (ht : .ok t ∈ scan text) : ¬t.isEof := by
  obtain ⟨-, cs, -, -, hcut, -, -⟩ := (scan_covered hsize).place_of_mem ht
  intro heof
  have hkind : t.word.kind = .eof := by
    rw [Token.word_kind]
    exact of_decide_eq_true heof
  have hwritten : Reading.Written (.ok t.word) cs := hcut.written
  cases hwritten with
  | word hw => exact hw.kind_ne_eof hkind

/-- The tokens of a text; its lexical errors are left out. -/
def tokensOf (text : String) : List Token :=
  (scan text).filterMap Except.toOption

theorem tokensOf_of_scan {text : String} {ts : List Token} (h : scan text = ts.map .ok) :
    tokensOf text = ts := by
  rw [tokensOf, h, List.filterMap_map]
  exact List.filterMap_some

theorem scan_eq_tokensOf {text : String} (h : ∀ i ∈ scan text, ∃ t, i = .ok t) :
    scan text = (tokensOf text).map .ok := by
  rw [tokensOf]
  generalize scan text = items at h
  induction items with
  | nil => rfl
  | cons i items ih =>
      obtain ⟨⟨t, rfl⟩, hitems⟩ := List.forall_mem_cons.mp h
      exact congrArg (List.cons _) (ih hitems)

theorem not_isEof_of_mem_tokensOf {text : String}
    (hsize : text.utf8ByteSize < UInt32.size) : ∀ t ∈ tokensOf text, ¬t.isEof := by
  intro t ht
  obtain ⟨i, hi, hit⟩ := List.mem_filterMap.mp ht
  cases i with
  | error e => cases hit
  | ok u =>
      cases hit
      exact not_isEof_of_mem_scan hsize hi

theorem scan_of_errors_nil {text : String} (hsize : text.utf8ByteSize < UInt32.size)
    (h : (parse text).errors = []) : ∀ i ∈ scan text, ∃ t, i = .ok t := by
  intro i hi
  cases i with
  | ok t => exact ⟨t, rfl⟩
  | error e =>
      have he : .ofLexical e ∈ (parse text).errors :=
        mem_parseStream_errors (fun t ht => not_isEof_of_mem_scan hsize ht) hi
      rw [h] at he
      cases he

namespace SelfContained

variable {line : String} (h : SelfContained line) (hsize : line.utf8ByteSize < UInt32.size)

include h hsize

theorem tokens : ∀ i ∈ scan line, ∃ t, i = .ok t :=
  scan_of_errors_nil hsize h.errors

theorem detached : Detached (tokensOf line) := by
  have hscan := scan_eq_tokensOf (h.tokens hsize)
  have hts := not_isEof_of_mem_tokensOf hsize
  have herrors := h.errors
  rw [parse, TokenStream.ofText, hscan] at herrors
  rcases h.closed with hnil | ⟨t, ht, hk⟩
  · rw [hnil] at hscan
    exact .inl (List.map_eq_nil_iff.mp hscan.symm)
  · rw [hscan, List.getLast?_map, Option.map_eq_some_iff] at ht
    obtain ⟨u, hu, hut⟩ := ht
    cases hut
    exact .of_errors_nil hts (by rw [hu, Option.map_some, hk]) herrors

end SelfContained

/-! ## Programs of lines -/

variable {lines : List String}

theorem size_le_join {line : String} (h : line ∈ lines) :
    line.utf8ByteSize ≤ (String.join lines).utf8ByteSize := by
  induction lines with
  | nil => cases h
  | cons l lines ih =>
      rw [String.join_cons, String.utf8ByteSize_append]
      rcases List.mem_cons.mp h with rfl | h
      · exact Nat.le_add_right _ _
      · exact Nat.le_trans (ih h) (Nat.le_add_left _ _)

/-- Lines without errors are cut into their tokens, one line after the other. -/
theorem scan_join (hends : ∀ l ∈ lines, EndsLine l)
    (htokens : ∀ l ∈ lines, ∀ i ∈ scan l, ∃ t, i = .ok t) :
    (scan (String.join lines)).map Item.erase =
      (((lines.map tokensOf).flatten).map Except.ok).map Item.erase := by
  induction lines with
  | nil => rfl
  | cons l lines ih =>
      obtain ⟨hl, hends⟩ := List.forall_mem_cons.mp hends
      obtain ⟨hts, htokens⟩ := List.forall_mem_cons.mp htokens
      rw [String.join_cons, scan_line _ hl hts, ih hends htokens, List.map_cons, List.flatten_cons,
        List.map_append, List.map_append, ← scan_eq_tokensOf hts]

theorem parse_join (h : ∀ l ∈ lines, SelfContained l)
    (hsize : (String.join lines).utf8ByteSize < UInt32.size) :
    (parse (String.join lines)).errors = [] ∧
      (parse (String.join lines)).program.erase =
        Program.erase (lines.map fun l => (parse l).program).flatten := by
  have hline {l : String} (hl : l ∈ lines) : l.utf8ByteSize < UInt32.size :=
    Nat.lt_of_le_of_lt (size_le_join hl) hsize
  have hscan := scan_join (fun l hl => (h l hl).ends) fun l hl => (h l hl).tokens (hline hl)
  obtain ⟨hprogram, herrors⟩ :=
    parseStream_erase (s := .ofText (String.join lines)) (t := ⟨_, .zero⟩) hscan
  have hdetached : ∀ ts ∈ lines.map tokensOf, Detached ts := by
    intro ts hts
    obtain ⟨l, hl, rfl⟩ := List.mem_map.mp hts
    exact (h l hl).detached (hline hl)
  -- the tokens of a line, with the places they have in it, are all that `parse` reads of it
  have halone {l : String} (hl : l ∈ lines) :=
    parseStream_erase (s := ⟨(tokensOf l).map .ok, .zero⟩) (t := .ofText l)
      (congrArg (List.map Item.erase) (scan_eq_tokensOf ((h l hl).tokens (hline hl))).symm)
  rw [parseStream_flatten .zero .zero hdetached] at hprogram herrors
  constructor
  · rw [List.map_flatMap, List.flatMap_map, List.flatMap_eq_nil_iff.mpr, List.map_eq_nil_iff]
      at herrors
    · exact herrors
    · intro l hl
      rw [(halone hl).2]
      exact List.map_eq_nil_iff.mpr (h l hl).errors
  · refine hprogram.trans ?_
    simp only [Program.erase, Stmt.respanAll_eq_map, List.map_flatMap, List.flatMap_map,
      ← List.flatMap_def]
    refine List.flatMap_congr fun l hl => ?_
    simpa only [Program.erase, Stmt.respanAll_eq_map, parse] using (halone hl).1

/-! ## Sessions -/

/-- A session runs the programs of its lines one after the other. -/
theorem Session.foldl_respond (lines : List String) (h : ∀ l ∈ lines, (parse l).errors = [])
    (s : Session) (last : Value) : lines.foldl (fun s l => (s.respond l).2) s =
      { s with world := (Program.runEach s.limit s.env
        (lines.map fun l => (parse l).program) last s.world).2.2 } := by
  induction lines generalizing s last with
  | nil => rfl
  | cons l lines ih =>
      obtain ⟨hl, hlines⟩ := List.forall_mem_cons.mp h
      rw [List.foldl_cons, s.respond_of_errors_nil hl, List.map_cons, Program.runEach]
      generalize (parse l).program = p
      exact ih hlines _ _

/-- Lines that stand for themselves are parsed together as they are alone. If no statement of them
ends with a signal where a session runs them line by line, then the program of all of them writes
the same, leaves the same scopes and has the value of the last line with a statement. -/
theorem run_join {lines : List String} (h : ∀ l ∈ lines, SelfContained l)
    (hsize : (String.join lines).utf8ByteSize < 2 ^ 32 - 1) :
    let programs := lines.map fun l => (parse l).program
    let whole := parse (String.join lines)
    whole.errors = [] ∧ whole.program.erase = Program.erase programs.flatten ∧
      ∀ limit : Nat,
        let s := Session.start limit
        let r := Program.runEach limit s.env programs .null s.world
        lines.foldl (fun s l => (s.respond l).2) s = { s with world := r.2.2 } ∧
          (Program.QuietEach limit s.env programs s.world →
            SameEnd (Program.run limit s.env whole.program s.world) r) := by
  intro programs whole
  have hsize' : (String.join lines).utf8ByteSize < UInt32.size :=
    Nat.lt_trans hsize (by decide)
  obtain ⟨herrors, hprogram⟩ := parse_join h hsize'
  refine ⟨herrors, hprogram, fun limit => ?_⟩
  intro s r
  exact ⟨s.foldl_respond lines (fun l hl => (h l hl).errors) .null,
    fun hquiet => Program.run_flatten hprogram hquiet rfl⟩

/-- A binding, a line without tokens, a function that uses the binding, and a call of it. -/
theorem run_join_call :
    let lines := ["let x = [1]; // a list\n", "// no tokens\n",
      "let f = fn(y) \x7b puts(y); push(x, y) \x7d;\n", "f(2);\n"]
    let programs := lines.map fun l => (parse l).program
    let s := Session.start 1
    (∀ l ∈ lines, SelfContained l) ∧ (String.join lines).utf8ByteSize < 2 ^ 32 - 1 ∧
      Program.QuietEach 1 s.env programs s.world ∧
      (parse (String.join lines)).errors = [] ∧
      (Program.run 1 s.env (parse (String.join lines)).program s.world).2.output = "2\n" ∧
      (Program.run 1 s.env (parse (String.join lines)).program s.world).1.text = "[1, 2]" := by
  intro lines programs s
  have hends {l : String} (h : l.toList.getLast? = some '\n') : EndsLine l :=
    List.getLast?_eq_some_iff.mp h
  have hlines : ∀ l ∈ lines, SelfContained l := by
    simp only [lines, List.forall_mem_cons]
    refine ⟨⟨hends (by decide), by decide +kernel, .inr ⟨⟨.semicolon, ";", ⟨11, 1⟩⟩, ?_, rfl⟩⟩,
      ⟨hends (by decide), by decide +kernel, .inl ?_⟩,
      ⟨hends (by decide), by decide +kernel, .inr ⟨⟨.semicolon, ";", ⟨37, 1⟩⟩, ?_, rfl⟩⟩,
      ⟨hends (by decide), by decide +kernel, .inr ⟨⟨.semicolon, ";", ⟨4, 1⟩⟩, ?_, rfl⟩⟩, nofun⟩
    all_goals decide +kernel
  have hsize : (String.join lines).utf8ByteSize < 2 ^ 32 - 1 := by decide +kernel
  have hquiet : Program.QuietEach 1 s.env programs s.world := by decide +kernel
  obtain ⟨herrors, -, hrun⟩ := run_join hlines hsize
  have hend := (hrun 1).2 hquiet
  refine ⟨hlines, hsize, hquiet, herrors, ?_, ?_⟩
  · rw [hend.output]
    decide +kernel
  · rw [Value.text_eq_of_erase_eq hend.value]
    decide +kernel

end Monkey
