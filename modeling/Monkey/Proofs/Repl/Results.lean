import Monkey.Proofs.Eval.Sequence
import Monkey.Proofs.Repl.Transcript

/-!
# Which results are shown

The answer to a line is what its program wrote and then the program's value, unless the program says
nothing. That is told from its last statement, a binding, whose own value is `null`. So another
value is lost in one case: the program is left by a `return` before that binding is made.
-/

namespace Monkey

open Eval

/-! ## Programs that end with a binding -/

/-- The last statement is a `let`. -/
def Program.EndsWithBinding (p : Program) : Prop :=
  ∃ init target value span, p = init ++ [Stmt.bind target value span]

theorem Session.bindsOnly_iff {p : Program} :
    bindsOnly p = true ↔ p = [] ∨ Program.EndsWithBinding p := by
  rcases List.eq_nil_or_concat p with rfl | ⟨init, s, rfl⟩
  · simp [bindsOnly]
  · have hlast : bindsOnly (init ++ [s]) = true ↔
        ∃ target value span, s = .bind target value span := by
      rw [bindsOnly, List.getLast?_concat]
      cases s <;> simp
    rw [List.concat_eq_append, hlast]
    constructor
    · rintro ⟨target, value, span, rfl⟩
      exact .inr ⟨init, target, value, span, rfl⟩
    · rintro (hnil | ⟨init', target, value, span, heq⟩)
      · exact absurd hnil (by simp)
      · exact ⟨target, value, span, (List.append_inj' heq rfl).2 |> List.singleton_inj.mp⟩

section Values

variable {apply : Apply} {env : Env} {w u : World} {v : Value}

/-- Where such statements come to their end, the binding has been made. -/
theorem Stmt.evalAll_concat_bind {target : Ident} {value : Expr} {span : Span} (init : List Stmt) :
    ∀ {last : Value} {w : World},
      Stmt.evalAll apply env (init ++ [.bind target value span]) last w = .ok v u → v = .null := by
  induction init with
  | nil =>
      intro last w h
      rw [List.nil_append, Stmt.evalAll, Stmt.eval] at h
      cases hvalue : value.eval apply env w with
      | ok x w' =>
          rw [bind_assoc, bind_of_ok hvalue] at h
          cases h
          rfl
      | error e w' =>
          rw [bind_assoc, bind_of_error hvalue] at h
          cases h
  | cons s init ih =>
      intro last w h
      rw [List.cons_append, Stmt.evalAll] at h
      cases hs : s.eval apply env w with
      | ok x w' =>
          rw [bind_of_ok hs] at h
          exact ih h
      | error e w' =>
          rw [bind_of_error hs] at h
          cases h

end Values

/-- The evaluation of the program ends with the signal of a `return`. -/
def Program.Returns (limit : Nat) (env : Env) (p : Program) (w : World) : Prop :=
  ∃ v u, Stmt.evalAll (applyWithin limit limit) env p .null w = .error (.ret v) u

/-- The program ends with a binding, and it is left by a `return` before that is made. -/
structure Program.Skips (limit : Nat) (env : Env) (p : Program) (w : World) : Prop where
  binding : p.EndsWithBinding
  returns : p.Returns limit env w

section Runs

variable {limit : Nat} {env : Env} {p : Program} {w : World}

/-- A program that ends with a binding comes to a value of its own in no other way. -/
theorem Program.EndsWithBinding.returns (h : p.EndsWithBinding)
    (hv : (Program.run limit env p w).1 ≠ .null)
    (hf : (Program.run limit env p w).1.isFault = false) : p.Returns limit env w := by
  obtain ⟨init, target, value, span, rfl⟩ := h
  rw [Program.Returns]
  rw [Program.run_eq_runAll, Stmt.runAll, settle] at hv hf
  cases hr : Stmt.evalAll (applyWithin limit limit) env (init ++ [.bind target value span]) .null w
    with
  | ok v u =>
      rw [hr] at hv
      exact absurd (congrArg Value.unwrapReturn (Stmt.evalAll_concat_bind init hr)) hv
  | error e u =>
      cases e with
      | ret v => exact ⟨v, u, rfl⟩
      | fault f =>
          rw [hr] at hf
          cases hf

/-- What is returned is not a fault. -/
theorem Program.Returns.isFault_eq_false (h : p.Returns limit env w) (hw : w.Plain) :
    (Program.run limit env p w).1.isFault = false := by
  obtain ⟨v, u, hr⟩ := h
  have hclean : Clean (Stmt.evalAll (applyWithin limit limit) env p .null) Value.Plain :=
    Stmt.evalAll_clean (applyWithin_clean limit limit) p .null trivial
  have hclean := hclean w hw
  rw [hr] at hclean
  have hv : v.Plain := hclean.1
  rw [Program.run_eq_runAll, Stmt.runAll, settle, hr]
  cases v with
  | signal s => exact hv.1.elim
  | _ => rfl

end Runs

namespace Session

variable {limit : Nat} {env : Env} {p : Program} {w : World} {v : Value}

theorem shown_of_isFault (h : v.isFault = true) : shown p v = v.text ++ "\n" := by
  rw [shown, h, Bool.true_or, if_pos rfl]

theorem shown_of_bindsOnly (h : v.isFault = false) (hp : bindsOnly p = true) :
    shown p v = "" := by
  rw [shown, h, hp]
  rfl

theorem shown_of_not_bindsOnly (hp : bindsOnly p = false) : shown p v = v.text ++ "\n" := by
  rw [shown, hp, Bool.not_false, Bool.or_true, if_pos rfl]

/-- Of the values other than `null` all are shown but those of programs that skip their last
binding. -/
theorem shown_eq (hw : w.Plain) (hv : (Program.run limit env p w).1 ≠ .null) :
    (¬p.Skips limit env w →
      shown p (Program.run limit env p w).1 = (Program.run limit env p w).1.text ++ "\n") ∧
    (p.Skips limit env w → shown p (Program.run limit env p w).1 = "") := by
  cases hf : (Program.run limit env p w).1.isFault with
  | true =>
      refine ⟨fun _ => shown_of_isFault hf, fun hskips => ?_⟩
      rw [hskips.returns.isFault_eq_false hw] at hf
      cases hf
  | false =>
      cases hp : bindsOnly p with
      | false =>
          refine ⟨fun _ => shown_of_not_bindsOnly hp, fun hskips => ?_⟩
          rw [bindsOnly_iff.mpr (.inr hskips.binding)] at hp
          cases hp
      | true =>
          have hbinding : p.EndsWithBinding := by
            refine (bindsOnly_iff.mp hp).resolve_left ?_
            rintro rfl
            exact hv rfl
          have hskips : p.Skips limit env w := ⟨hbinding, hbinding.returns hv hf⟩
          exact ⟨fun hnot => absurd hskips hnot, fun _ => shown_of_bindsOnly hf hp⟩

/-- How the value of the line is shown in the answer to it, if it is not `null`: behind what the
program wrote, with a line feed, unless the program skips its last binding. -/
structure Shows (s : Session) (line answer : String) : Prop where
  shown : (Program.run s.limit s.env (parse line).program s.world).1 ≠ .null →
    ¬(parse line).program.Skips s.limit s.env s.world →
    answer = (Program.run s.limit s.env (parse line).program s.world).2.output ++
      (Program.run s.limit s.env (parse line).program s.world).1.text ++ "\n"
  skipped : (Program.run s.limit s.env (parse line).program s.world).1 ≠ .null →
    (parse line).program.Skips s.limit s.env s.world →
    answer = (Program.run s.limit s.env (parse line).program s.world).2.output

theorem Waiting.shows {s : Session} {line : String} (hs : s.Waiting limit)
    (h : (parse line).errors = []) : s.Shows line (s.answer line) := by
  rw [s.answer_of_errors_nil h]
  constructor
  · intro hv hnot
    rw [(shown_eq hs.plain hv).1 hnot, String.append_assoc]
  · intro hv hskips
    rw [(shown_eq hs.plain hv).2 hskips, String.append_empty]

end Session

namespace Repl

/-- Whatever a line evaluates to is shown at the end of the answer to the line, if it is not `null`
and the program of the line does not skip its last binding. -/
theorem run_shows_values (limit : Nat) {input : ByteArray} {texts : List String}
    (h : lines input.toList = texts.map fun t => t.toUTF8.toList) :
    let start := Session.start limit
    Says limit input (transcript (start.answers texts)) ∧
    ∀ (i : Nat) (line : String), texts[i]? = some line → (parse line).errors = [] →
      ∃ answer, (start.answers texts)[i]? = some answer ∧
        (start.after (texts.take i)).Shows line answer := by
  intro start
  refine ⟨says_transcript limit h, fun i line hline herrors =>
    ⟨(start.after (texts.take i)).answer line, ?_, ?_⟩⟩
  · rw [Session.getElem?_answers, hline, Option.map_some]
  · exact ((Session.start_waiting limit).after (texts.take i)).shows herrors

/-- Two lines end with a binding, and the second of them returns before that. -/
theorem run_shows_values_after_return :
    let skipping := "return f(5); let x = 1;\n"
    let texts := ["let f = fn(n) \x7b puts(true); n \x7d;\n", skipping, "f(6)"]
    let start := Session.start 1
    run 1 none (String.join texts).toUTF8 = (">> >> true\n>> true\n6\n>> ".toUTF8, none) ∧
    (∃ s, s = start.after (texts.take 1) ∧ s.Shows skipping "true\n" ∧
      (parse skipping).program.Skips s.limit s.env s.world ∧
      (Program.run s.limit s.env (parse skipping).program s.world).1.text = "5") ∧
    ∃ s, s = start.after (texts.take 2) ∧ s.Shows "f(6)" "true\n6\n" ∧
      ¬(parse "f(6)").program.Skips s.limit s.env s.world ∧
      (Program.run s.limit s.env (parse "f(6)").program s.world).1.text = "6" := by
  intro skipping texts start
  have hlines : lines (String.join texts).toUTF8.toList = texts.map fun t => t.toUTF8.toList := by
    simp only [toList_eq]
    decide +kernel
  obtain ⟨hsaid, hshows⟩ := run_shows_values 1 hlines
  have hanswers : start.answers texts = ["", "true\n", "true\n6\n"] := by decide +kernel
  rw [hanswers] at hsaid hshows
  obtain ⟨_, ⟨rfl⟩, hskipped⟩ := hshows 1 skipping rfl (by decide +kernel)
  obtain ⟨_, ⟨rfl⟩, hshown⟩ := hshows 2 "f(6)" rfl (by decide +kernel)
  refine ⟨hsaid.1, ⟨_, rfl, hskipped, ?_, by decide +kernel⟩,
    ⟨_, rfl, hshown, ?_, by decide +kernel⟩⟩
  · have hbinds : Session.bindsOnly (parse skipping).program = true := by decide +kernel
    have hlength : (parse skipping).program.length ≠ 0 := by decide +kernel
    have hbinding : (parse skipping).program.EndsWithBinding :=
      (Session.bindsOnly_iff.mp hbinds).resolve_left
        fun hnil => hlength (congrArg List.length hnil)
    refine ⟨hbinding, hbinding.returns (fun hnull => ?_) (by decide +kernel)⟩
    have htext := congrArg Value.text hnull
    revert htext
    decide +kernel
  · have hbinds : ¬Session.bindsOnly (parse "f(6)").program = true := by decide +kernel
    exact fun hskips => hbinds (Session.bindsOnly_iff.mpr (.inr hskips.binding))

/-- The value 5 of the one line of this session is not shown. -/
theorem returned_value_lost :
    let line := "return 5; let x = 1;\n"
    let s := Session.start 1024
    (parse line).errors = [] ∧
    (Program.run s.limit s.env (parse line).program s.world).1.text = "5" ∧
    run 1024 none line.toUTF8 = (">> >> ".toUTF8, none) ∧
    ¬∃ before, s.answer line = before ++ "5" ++ "\n" := by
  intro line s
  have hlines : lines line.toUTF8.toList = [line].map fun t => t.toUTF8.toList := by
    simp only [toList_eq]
    decide +kernel
  have hanswer : s.answer line = "" := by decide +kernel
  have hanswers : s.answers [line] = [""] := congrArg (· :: []) hanswer
  have hsaid := (says_transcript 1024 hlines).1
  rw [hanswers] at hsaid
  refine ⟨by decide +kernel, by decide +kernel, hsaid, ?_⟩
  rintro ⟨before, hbefore⟩
  have hlength := congrArg String.length (hanswer.symm.trans hbefore)
  have hfeed : "\n".length = 1 := rfl
  rw [String.length_append, hfeed] at hlength
  exact Nat.succ_ne_zero _ hlength.symm

end Repl

end Monkey
