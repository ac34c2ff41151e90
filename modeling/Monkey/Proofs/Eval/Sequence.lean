import Monkey.Proofs.Eval.Erasure
import Monkey.Repl

/-!
# Programs one after the other

A session runs its programs one after the other in one environment, and takes out of the world what
each of them has written. As long as no statement ends with a signal, that is the same as running
all statements as one program.
-/

namespace Monkey

/-! ## Sequences of programs -/

section Programs

variable (limit : Nat) (env : Env)

/-- No statement of the program ends with a signal, where each begins as the one before has ended.
-/
def Program.Quiet : Program → World → Prop
  | [], _ => True
  | s :: ss, w =>
    (Stmt.run limit env s w).1.isSignal = false ∧ Program.Quiet ss (Stmt.run limit env s w).2

instance Program.decidableQuiet : (p : Program) → (w : World) →
    Decidable (Program.Quiet limit env p w)
  | [], _ => .isTrue trivial
  | s :: ss, w =>
    have := Program.decidableQuiet ss (Stmt.run limit env s w).2
    inferInstanceAs (Decidable (_ ∧ _))

/-- Programs run one after the other: the value of the last one that has a statement, or `last`, all
that was written, and the world behind them. -/
def Program.runEach : List Program → Value → World → Value × String × World
  | [], last, w => (last, "", w)
  | p :: ps, last, w =>
    let x := Program.run limit env p w
    let (output, w) := x.2.takeOutput
    let r := Program.runEach ps (if p.isEmpty then last else x.1) w
    (r.1, output ++ r.2.1, r.2.2)

def Program.QuietEach : List Program → World → Prop
  | [], _ => True
  | p :: ps, w =>
    Program.Quiet limit env p w ∧
      Program.QuietEach ps (Program.run limit env p w).2.takeOutput.2

instance Program.decidableQuietEach : (ps : List Program) → (w : World) →
    Decidable (Program.QuietEach limit env ps w)
  | [], _ => .isTrue trivial
  | p :: ps, w =>
    have := Program.decidableQuietEach ps (Program.run limit env p w).2.takeOutput.2
    inferInstanceAs (Decidable (_ ∧ _))

end Programs

/-! ## Without signals -/

open Eval

theorem Eval.eq_ok_of_settle {m : Eval Value} {w : World} (h : (m.settle w).1.isSignal = false) :
    m w = .ok (m.settle w).1 (m.settle w).2 := by
  rw [settle] at h ⊢
  cases hr : m w with
  | ok v u => rfl
  | error s u =>
      rw [hr] at h
      cases h

variable {limit : Nat} {env : Env}

theorem Stmt.evalAll_append_of_ok {apply : Apply} {ss : List Stmt} (ts : List Stmt)
    {last v : Value} {w u : World} (h : Stmt.evalAll apply env ss last w = .ok v u) :
    Stmt.evalAll apply env (ss ++ ts) last w = Stmt.evalAll apply env ts v u := by
  induction ss generalizing last w with
  | nil =>
      cases h
      rfl
  | cons s ss ih =>
      rw [Stmt.evalAll] at h
      rw [List.cons_append, Stmt.evalAll]
      cases hr : s.eval apply env w with
      | ok a w' =>
          rw [bind_of_ok hr] at h ⊢
          exact ih h
      | error e w' =>
          rw [bind_of_error hr] at h
          cases h

theorem Value.unwrapReturn_of_isSignal {v : Value} (h : v.isSignal = false) :
    v.unwrapReturn = v := by
  cases v with
  | signal s => cases h
  | _ => rfl

namespace Program.Quiet

variable {p : Program} {w : World} {last : Value}

theorem evalAll (h : Program.Quiet limit env p w) (hlast : last.isSignal = false) :
    ∃ v u, Stmt.evalAll (applyWithin limit limit) env p last w = .ok v u ∧
      v.isSignal = false := by
  induction p generalizing last w with
  | nil => exact ⟨last, w, rfl, hlast⟩
  | cons s ss ih =>
      obtain ⟨hs, hss⟩ := h
      obtain ⟨v, u, hrun, hv⟩ := ih hss hs
      refine ⟨v, u, ?_, hv⟩
      rw [Stmt.evalAll, bind_of_ok (eq_ok_of_settle hs)]
      exact hrun

/-- The value of a quiet program is that of its last statement. -/
theorem runAll_eq (h : Program.Quiet limit env p w) (hlast : last.isSignal = false) :
    Stmt.runAll limit env p last w =
        (if p.isEmpty then last else (Program.run limit env p w).1,
          (Program.run limit env p w).2) ∧
      (Stmt.runAll limit env p last w).1.isSignal = false := by
  cases p with
  | nil => exact ⟨rfl, hlast⟩
  | cons s ss =>
      obtain ⟨v, u, hrun, hv⟩ := h.evalAll hlast
      have hsettle : Stmt.runAll limit env (s :: ss) last w = (v, u) := by
        rw [Stmt.runAll, settle, hrun]
      have hnull : Stmt.runAll limit env (s :: ss) .null w = (v, u) := hsettle
      rw [Program.run_eq_runAll, hnull, hsettle]
      exact ⟨congrArg (·, u) (Value.unwrapReturn_of_isSignal hv).symm, hv⟩

end Program.Quiet

/-! ## One program -/

theorem Stmt.runAll_append (ss ts : List Stmt) {last : Value} {w : World}
    (h : (Stmt.runAll limit env ss last w).1.isSignal = false) :
    Stmt.runAll limit env (ss ++ ts) last w =
      Stmt.runAll limit env ts (Stmt.runAll limit env ss last w).1
        (Stmt.runAll limit env ss last w).2 := by
  rw [Stmt.runAll, settle, Stmt.evalAll_append_of_ok ts (eq_ok_of_settle h)]
  rfl

theorem World.erase_takeOutput (w : World) (text : String) :
    w.takeOutput.2.erase.prepend (text ++ w.takeOutput.1) = w.erase.prepend text :=
  congrArg (World.mk w.erase.heap · w.functions) String.append_empty

/-- Quiet programs one after the other do what all their statements together do, in a world that is
the same but for places and for the text that had been written before. -/
theorem Program.runEach_alike (ps : List Program) : ∀ {w w' : World} {text : String}
    {last last' : Value}, Program.QuietEach limit env ps w → last.isSignal = false →
    last.erase = last'.erase → w.erase.prepend text = w'.erase.prepend "" →
    let r := Program.runEach limit env ps last w
    let x := Stmt.runAll limit env ps.flatten last' w'
    r.1.isSignal = false ∧ r.1.erase = x.1.erase ∧
      r.2.2.erase.prepend (text ++ r.2.1) = x.2.erase.prepend "" := by
  induction ps with
  | nil =>
      intro w w' text last last' _ hsignal hlast hw
      refine ⟨hsignal, hlast, ?_⟩
      rw [Program.runEach, String.append_empty]
      exact hw
  | cons p ps ih =>
      -- `text` is all that the programs before have written: the session has taken it out
      intro w w' text last last' ⟨hp, hps⟩ hsignal hlast hw
      obtain ⟨hrun, hv⟩ := hp.runAll_eq hsignal
      obtain ⟨hvalue, hworld⟩ := Stmt.runAll_alike limit env (rfl : Stmt.eraseAll p = _) hlast hw
      have hv' := Value.isSignal_eq_of_erase_eq hvalue ▸ hv
      rw [hrun] at hv hvalue hworld
      rw [← World.erase_takeOutput] at hworld
      obtain ⟨hsignal', hvalue', hworld'⟩ := ih hps hv hvalue hworld
      rw [String.append_assoc] at hworld'
      simp only [List.flatten_cons, Stmt.runAll_append _ _ hv']
      exact ⟨hsignal', hvalue', hworld'⟩

theorem Program.runEach_output (ps : List Program) {last : Value} {w : World}
    (hw : w.output = "") : (Program.runEach limit env ps last w).2.2.output = "" := by
  induction ps generalizing last w with
  | nil => exact hw
  | cons p ps ih => exact ih rfl

/-- The end of one program is that of programs one after the other, but for places. -/
structure SameEnd (x : Value × World) (r : Value × String × World) : Prop where
  value : x.1.erase = r.1.erase
  output : x.2.output = r.2.1
  heap : x.2.heap.erase = r.2.2.heap.erase

/-- One program of the statements of quiet programs ends as these do one after the other. -/
theorem Program.run_flatten {ps : List Program} {p : Program} {w : World}
    (hp : p.erase = Program.erase ps.flatten) (h : Program.QuietEach limit env ps w)
    (hw : w.output = "") :
    SameEnd (Program.run limit env p w) (Program.runEach limit env ps .null w) := by
  obtain ⟨hsignal, hvalue, hworld⟩ :=
    Program.runEach_alike ps h (rfl : Value.null.isSignal = false) rfl rfl
  obtain ⟨hvalue', hworld'⟩ := Program.run_alike limit env hp (rfl : w.erase.prepend "" = _)
  have hreturn : (Program.run limit env ps.flatten w).1 =
      (Stmt.runAll limit env ps.flatten .null w).1 := by
    rw [Program.run_eq_runAll]
    exact Value.unwrapReturn_of_isSignal (Value.isSignal_eq_of_erase_eq hvalue ▸ hsignal)
  have hend : (Program.run limit env p w).2.erase =
      (Program.runEach limit env ps .null w).2.2.erase.prepend
        (Program.runEach limit env ps .null w).2.1 := by
    rw [String.empty_append] at hworld
    rw [← World.prepend_empty (World.erase _), hworld]
    exact hworld'
  refine ⟨?_, ?_, congrArg World.heap hend⟩
  · rw [hvalue', hreturn, hvalue]
  · have houtput := congrArg World.output hend
    change _ = _ ++ (Program.runEach limit env ps .null w).2.2.output at houtput
    rw [Program.runEach_output ps hw, String.append_empty] at houtput
    exact houtput

end Monkey
