import Monkey.Repl
import Monkey.Proofs.Eval.Limit
import Monkey.Proofs.Eval.Plain

/-!
# What lasts from line to line

A line with syntax errors leaves a session as it is, so the other lines are answered as if it had
not been there. A line that ends with a fault leaves the world as it was when the fault came up. And
no line uses up calls of the lines after it: one machine that goes on counting its open calls from
line to line gives the answers of machines that begin to count with each line.
-/

namespace Monkey

/-! ## Where a fault comes up -/

namespace Machine

open Control

variable {limit : Nat} {s t u : State} {f g : Fault}

/-- In state `u`, on the way from `s`, a fault comes up: the step before it raised none. -/
structure Faults (limit : Nat) (s u : State) (f : Fault) : Prop where
  raised : u.control = raise (.fault f)
  comes : ∃ t, Reaches limit s t ∧ (∀ g, t.control ≠ raise (.fault g)) ∧ t.step limit = some u

theorem Faults.reaches (h : Faults limit s u f) : Reaches limit s u := by
  obtain ⟨t, ht, -, hu⟩ := h.comes
  exact ht.trans (.step hu trivial (.refl u))

theorem Path.faults (h : Reaches limit s t) (ht : t.control = raise (.fault f))
    (hs : ∀ g, s.control ≠ raise (.fault g)) : ∃ u g, Faults limit s u g ∧ Reaches limit u t := by
  induction h with
  | refl s => exact absurd ht (hs f)
  | @step s s' t hstep _ htail ih =>
      by_cases hs' : ∃ g, s'.control = raise (.fault g)
      · obtain ⟨g, hg⟩ := hs'
        exact ⟨s', g, ⟨hg, s, .refl s, hs, hstep⟩, htail⟩
      · obtain ⟨u, g, ⟨hu, r, hr, hrg, hru⟩, hut⟩ := ih ht fun g hg => hs' ⟨g, hg⟩
        exact ⟨u, g, ⟨hu, r, .step hstep trivial hr, hrg, hru⟩, hut⟩

/-- Nothing is done any more once a fault is raised. -/
theorem Faults.end_eq (h : Faults limit s u g) (hut : Reaches limit u t)
    (ht : t.step limit = none) (hf : t.control = raise (.fault f)) :
    g = f ∧ t.world = u.world := by
  obtain ⟨c, k, d, w⟩ := u
  have hc : c = raise (.fault g) := h.raised
  subst hc
  obtain ⟨d', hd'⟩ := fault_reaches limit g k d w
  have hend := (hut.through ht hd').eq_of_halted rfl
  rw [hend] at hf ⊢
  cases hf
  exact ⟨rfl, rfl⟩

/-- A program that ends with a fault leaves the world as the fault found it. -/
theorem run_faults {env : Env} {p : Program} {w : World} (hw : w.Plain)
    (h : (Program.run limit env p w).1 = .signal (.fault f)) :
    ∃ u, Faults limit (.start env p w) u f ∧ (Program.run limit env p w).2 = u.world := by
  have hclean : Eval.Clean (Stmt.evalAll (applyWithin limit limit) env p .null) Value.Plain :=
    Stmt.evalAll_clean (applyWithin_clean limit limit) p .null trivial
  have hclean := hclean w hw
  have hreach := start_reaches limit env p w
  rw [run_eq_outcome] at h ⊢
  generalize Stmt.evalAll (applyWithin limit limit) env p .null w = r at h hclean hreach ⊢
  have hr : (State.ended [] 0 r).control = raise (.fault f) := by
    cases r with
    | ok v w' =>
        cases v with
        | signal s => exact hclean.1.1.elim
        | _ => cases h
    | error s w' =>
        cases s with
        | ret v =>
            -- a returned fault would look the same, but no value holds a signal
            have hv : v = .signal (.fault f) := h
            rw [hv] at hclean
            exact hclean.1.1.elim
        | fault g =>
            cases h
            rfl
  obtain ⟨u, g, hu, hend⟩ := hreach.faults hr nofun
  obtain ⟨rfl, hworld⟩ := hu.end_eq hend (step_ended limit 0 r) hr
  refine ⟨u, hu, ?_⟩
  rw [← hworld]
  cases r <;> rfl

end Machine

/-! ## Answers -/

/-- What is said about a program with syntax errors. -/
def listing (errors : List SyntaxError) : String :=
  "parser errors:\n" ++ String.join (errors.map fun e => "\t" ++ e.cause.message ++ "\n")

namespace Session

/-- What is said about the value of a program, after what the program wrote. -/
def shown (p : Program) (v : Value) : String :=
  if v.isFault || !bindsOnly p then v.text ++ "\n" else ""

def answer (s : Session) (line : String) : String :=
  String.join (s.respond line).1

/-- The answers to the lines, one after the other. -/
def answers : Session → List String → List String
  | _, [] => []
  | s, l :: ls => s.answer l :: (s.respond l).2.answers ls

def after : Session → List String → Session
  | s, [] => s
  | s, l :: ls => (s.respond l).2.after ls

variable (s : Session) {line : String}

theorem answer_of_errors (h : (parse line).errors ≠ []) :
    s.answer line = listing (parse line).errors := by
  rw [answer, respond, List.isEmpty_eq_false_iff.mpr h]
  exact String.join_cons ..

theorem respond_of_errors (h : (parse line).errors ≠ []) : (s.respond line).2 = s := by
  simp only [respond, List.isEmpty_eq_false_iff.mpr h, Bool.false_eq_true, if_false]

theorem answer_of_errors_nil (h : (parse line).errors = []) :
    s.answer line =
      (Program.run s.limit s.env (parse line).program s.world).2.output ++
        shown (parse line).program
          (Program.run s.limit s.env (parse line).program s.world).1 := by
  simp only [answer, respond, h, List.isEmpty_nil, if_true, String.join_cons, World.takeOutput,
    shown]
  split <;> simp

theorem respond_of_errors_nil (h : (parse line).errors = []) :
    (s.respond line).2 =
      { s with world :=
        (Program.run s.limit s.env (parse line).program s.world).2.takeOutput.2 } := by
  simp only [respond, h, List.isEmpty_nil, if_true]

theorem getElem?_answers (lines : List String) (i : Nat) :
    (s.answers lines)[i]? = lines[i]?.map (s.after (lines.take i)).answer := by
  induction lines generalizing s i with
  | nil => rfl
  | cons l lines ih =>
      cases i with
      | zero => rfl
      | succ i =>
          rw [answers, List.take_succ_cons, after]
          exact ih (s.respond l).2 i

theorem after_take_succ {lines : List String} {i : Nat} (h : lines[i]? = some line) :
    s.after (lines.take (i + 1)) = ((s.after (lines.take i)).respond line).2 := by
  induction lines generalizing s i with
  | nil => cases h
  | cons l lines ih =>
      cases i with
      | zero =>
          cases h
          rw [List.take_succ_cons, after, List.take_zero, List.take_zero, after, after]
      | succ i =>
          rw [List.take_succ_cons, List.take_succ_cons, after, after]
          exact ih (s.respond l).2 h

/-- Without a line that has syntax errors, the others are answered as they are with it. -/
theorem answers_eraseIdx {lines : List String} {i : Nat} (h : lines[i]? = some line)
    (herrors : (parse line).errors ≠ []) :
    s.answers (lines.eraseIdx i) = (s.answers lines).eraseIdx i := by
  induction lines generalizing s i with
  | nil => cases h
  | cons l lines ih =>
      cases i with
      | zero =>
          cases h
          exact (congrArg (answers · lines) (s.respond_of_errors herrors)).symm
      | succ i => exact congrArg (List.cons _) (ih (s.respond l).2 h)

/-! ## Between two lines -/

/-- What holds of a session that waits for its next line. -/
structure Waiting (limit : Nat) (s : Session) : Prop where
  limit_eq : s.limit = limit
  env_eq : s.env = (start limit).env
  plain : s.world.Plain
  output : s.world.output = ""

theorem start_waiting (limit : Nat) : (start limit).Waiting limit where
  limit_eq := rfl
  env_eq := rfl
  plain := World.Reachable.plain (.newEnv .empty)
  output := rfl

namespace Waiting

variable {s} {limit : Nat} (h : s.Waiting limit)

include h

theorem respond (line : String) : (s.respond line).2.Waiting limit := by
  by_cases herrors : (parse line).errors = []
  · rw [s.respond_of_errors_nil herrors]
    generalize (parse line).program = p
    have hplain := (Program.run_ends s.limit s.limit s.env p h.plain).2
    rw [← Program.run_eq_node_run] at hplain
    generalize Program.run s.limit s.env p s.world = r at hplain ⊢
    exact ⟨h.limit_eq, h.env_eq, hplain, rfl⟩
  · rw [s.respond_of_errors herrors]
    exact h

theorem after (lines : List String) : (s.after lines).Waiting limit := by
  induction lines generalizing s with
  | nil => exact h
  | cons l lines ih =>
      rw [Session.after]
      exact ih (h.respond l)

end Waiting

/-! ## Lines that fail -/

/-- The line has no syntax errors, and its program ends with a fault. -/
structure Fails (s : Session) (line : String) (f : Fault) : Prop where
  errors : (parse line).errors = []
  ends : (Program.run s.limit s.env (parse line).program s.world).1 = .signal (.fault f)

theorem exists_fails {s : Session} {line : String} (h : (parse line).errors = [])
    (hf : (Program.run s.limit s.env (parse line).program s.world).1.isFault = true) :
    ∃ f, s.Fails line f := by
  generalize hv : (Program.run s.limit s.env (parse line).program s.world).1 = v at hf
  unfold Value.isFault at hf
  split at hf
  · exact ⟨_, h, hv⟩
  · cases hf

/-- What the program wrote until the fault came up is said, and what it bound until then stays. -/
theorem Fails.respond {s : Session} {limit : Nat} {f : Fault} (h : s.Fails line f)
    (hs : s.Waiting limit) :
    ∃ u, Machine.Faults limit (.start s.env (parse line).program s.world) u f ∧
      s.answer line = u.world.output ++ "ERROR: " ++ f.cause.message ++ "\n" ∧
      (s.respond line).2 = { s with world := u.world.takeOutput.2 } := by
  obtain ⟨u, hu, hworld⟩ := Machine.run_faults hs.plain h.ends
  refine ⟨u, hs.limit_eq ▸ hu, ?_, ?_⟩
  · rw [s.answer_of_errors_nil h.errors, hworld, h.ends]
    simp only [shown, Value.isFault, Bool.true_or, if_true, Value.text, Signal.text,
      String.append_assoc]
  · rw [s.respond_of_errors_nil h.errors, hworld]

end Session

/-! ## Open calls from line to line -/

namespace Machine

variable {limit : Nat} {t : State}

/-- A session on one machine, which has `d` open calls in its count before the first of the lines,
and goes on with the count that a line leaves. -/
inductive Talks (limit : Nat) (env : Env) : Nat → World → List String → List String → Prop
  | nil (d : Nat) (w : World) : Talks limit env d w [] []
  | rejected {d : Nat} {w : World} {line : String} {lines answers : List String} :
    (parse line).errors ≠ [] → Talks limit env d w lines answers →
      Talks limit env d w (line :: lines) (listing (parse line).errors :: answers)
  | ran {d : Nat} {w : World} {line : String} {lines answers : List String} {t : State} :
    (parse line).errors = [] → Reaches limit ⟨.stmts env (parse line).program .null, [], d, w⟩ t →
      t.step limit = none → Talks limit env t.depth t.outcome.2.takeOutput.2 lines answers →
      Talks limit env d w (line :: lines)
        ((t.outcome.2.output ++ Session.shown (parse line).program t.outcome.1.unwrapReturn) ::
          answers)

/-- Whatever a program ends with, all its calls are closed. -/
theorem depth_eq_zero {env : Env} {p : Program} {w : World} (h : Reaches limit (.start env p w) t)
    (ht : t.step limit = none) : t.depth = 0 := by
  have hend := ((start_reaches limit env p w).through (step_ended limit 0 _) h).eq_of_halted ht
  rw [← hend]
  exact (outcome_ended _ w 0).2.1

theorem exists_end (limit : Nat) (env : Env) (p : Program) (w : World) :
    ∃ t, Reaches limit (.start env p w) t ∧ t.step limit = none :=
  ⟨_, start_reaches limit env p w, step_ended limit 0 _⟩

section Talks

variable {env : Env} {w : World} {line : String} {lines answers : List String}

theorem talks_of_errors {d : Nat} (h : (parse line).errors ≠ []) :
    Talks limit env d w (line :: lines) answers ↔
      ∃ rest, answers = listing (parse line).errors :: rest ∧ Talks limit env d w lines rest := by
  constructor
  · rintro (_ | ⟨_, hrest⟩ | ⟨hnil, _⟩)
    · exact ⟨_, rfl, hrest⟩
    · exact absurd hnil h
  · rintro ⟨rest, rfl, hrest⟩
    exact .rejected h hrest

/-- There is one end that the program of the line can come to, and its count is zero. -/
theorem talks_of_errors_nil (h : (parse line).errors = [])
    (ht : Reaches limit (.start env (parse line).program w) t) (hend : t.step limit = none) :
    Talks limit env 0 w (line :: lines) answers ↔
      ∃ rest, answers =
          (t.outcome.2.output ++ Session.shown (parse line).program t.outcome.1.unwrapReturn) ::
            rest ∧
        Talks limit env 0 t.outcome.2.takeOutput.2 lines rest := by
  have hdepth := depth_eq_zero ht hend
  constructor
  · rintro (_ | ⟨hne, _⟩ | ⟨_, ht', hend', hrest⟩)
    · exact absurd h hne
    · have hsame := (ht.through hend ht').eq_of_halted hend'
      rw [← hsame, hdepth] at hrest
      rw [← hsame]
      exact ⟨_, rfl, hrest⟩
  · rintro ⟨rest, rfl, hrest⟩
    rw [← hdepth] at hrest
    exact .ran h ht hend hrest

end Talks

/-- One machine that never sets its count back gives the answers of the session. -/
theorem talks_iff {s : Session} (h : s.Waiting limit) (lines answers : List String) :
    Talks limit s.env 0 s.world lines answers ↔ answers = s.answers lines := by
  induction lines generalizing s answers with
  | nil =>
      constructor
      · rintro ⟨⟩
        rfl
      · rintro rfl
        exact .nil _ _
  | cons line lines ih =>
      rw [Session.answers]
      by_cases herrors : (parse line).errors = []
      · obtain ⟨t, ht, hend⟩ := exists_end limit s.env (parse line).program s.world
        have hrun : Program.run s.limit s.env (parse line).program s.world =
            (t.outcome.1.unwrapReturn, t.outcome.2) :=
          h.limit_eq ▸ run_of_reaches s.env _ s.world ht hend
        have hih := ih (h.respond line)
        rw [talks_of_errors_nil herrors ht hend, s.answer_of_errors_nil herrors, hrun]
        rw [s.respond_of_errors_nil herrors, hrun] at hih ⊢
        simp only [hih, exists_eq_right]
      · simp only [talks_of_errors herrors, s.respond_of_errors herrors,
          s.answer_of_errors herrors, ih h, exists_eq_right]

end Machine

end Monkey
