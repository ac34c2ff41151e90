import Monkey.Proofs.Eval.Mirror

/-!
# Evaluation without places

The spans of a program end up in faults and in the bodies of functions, and are looked at by no
evaluation. So a program without its places does the same, in a world without places, as the program
with them.
-/

namespace Monkey

open Eval (Mirrored)

/-- All spans are taken away; scopes and functions stay as they are. -/
def Renaming.erase : Renaming :=
  ⟨fun _ => .zero, id, id⟩

/-- The value without the places of the trees and the fault in it. -/
abbrev Value.erase (v : Value) : Value :=
  v.rename .erase

namespace Value

variable {v v' : Value}

theorem text_eq_of_erase_eq (h : v.erase = v'.erase) : v.text = v'.text := by
  have htext := congrArg text h
  rwa [text_rename, text_rename] at htext

theorem isSignal_eq_of_erase_eq (h : v.erase = v'.erase) : v.isSignal = v'.isSignal := by
  have hsignal := congrArg isSignal h
  rwa [isSignal_rename, isSignal_rename] at hsignal

/-- A fault is the same fault somewhere else. -/
theorem fault_of_erase_eq {f : Fault} (h : v.erase = v'.erase) (hv : v = .signal (.fault f)) :
    ∃ g, v' = .signal (.fault g) ∧ g.cause = f.cause := by
  subst hv
  cases v' with
  | signal s =>
      cases s with
      | ret v => simp at h
      | fault g =>
          simp only [rename, Signal.rename, signal.injEq, Signal.fault.injEq] at h
          exact ⟨g, rfl, (congrArg Fault.cause h).symm⟩
  | _ => simp at h

end Value

def Scope.erase (s : Scope) : Scope :=
  ⟨s.bindings.map fun e => (e.1, e.2.erase), s.parent⟩

namespace Heap

theorem eq_of_scopes {h h' : Heap} (hs : h.scopes = h'.scopes) : h = h' := by
  cases h
  cases h'
  cases hs
  rfl

def erase (h : Heap) : Heap :=
  ⟨h.scopes.map Scope.erase, fun i hi p hp => by
    rw [Array.size_map] at hi
    rw [Array.getElem_map] at hp
    exact h.parent_lt i hi p hp⟩

variable (h : Heap)

theorem lookup_erase (env : Env) (name : String) :
    h.erase.lookup env name = (h.lookup env name).map Value.erase := by
  suffices hwithin : ∀ n env,
      h.erase.lookupWithin name n env = (h.lookupWithin name n env).map Value.erase from
    hwithin _ env
  intro n
  induction n with
  | zero => exact fun _ => rfl
  | succ n ih =>
      intro env
      rw [lookupWithin, lookupWithin, erase, Array.getElem?_map]
      cases h.scopes[env.id]? with
      | none => rfl
      | some s =>
          simp only [Option.map_some, Scope.erase]
          rw [Entries.get?_rename]
          cases Entries.get? name s.bindings with
          | some v => rfl
          | none =>
              cases s.parent with
              | none => rfl
              | some p => exact ih p

theorem declare_erase (env : Env) (name : String) (v : Value) :
    h.erase.declare env name v.erase = (h.declare env name v).erase := by
  refine eq_of_scopes (Array.ext_getElem? fun i => ?_)
  simp only [declare, erase, Array.getElem?_modify, Array.getElem?_map]
  by_cases hi : env.id = i
  · cases h.scopes[i]? with
    | none => simp
    | some s => simp [hi, Scope.erase, Entries.put_rename]
  · simp [hi]

theorem push_erase (parent : Option Env) :
    h.erase.push parent = ((h.push parent).1, (h.push parent).2.erase) := by
  refine Prod.ext ?_ (eq_of_scopes ?_)
  · simp [push, erase]
  · simp [push, erase, Scope.erase]

end Heap

namespace World

/-- The world without places. -/
def erase (w : World) : World :=
  ⟨w.heap.erase, w.output, w.functions⟩

theorem output_eq_of_erase_eq {w w' : World} (h : w.erase = w'.erase) : w.output = w'.output :=
  (mk.inj h).2.1

/-- The world in which `text` had been written before all else. -/
def prepend (text : String) (w : World) : World :=
  ⟨w.heap, text ++ w.output, w.functions⟩

theorem prepend_empty (w : World) : w.prepend "" = w :=
  congrArg (World.mk w.heap · w.functions) String.empty_append

end World

theorem mirrored_erase (text : String) :
    Mirrored .erase fun w w' => w' = w.erase.prepend text where
  lookup := by
    rintro w _ env name rfl
    exact w.heap.lookup_erase env name
  declare := by
    rintro w _ env name v rfl
    exact congrArg (fun h => World.mk h _ _) (w.heap.declare_erase env name v)
  enter := by
    rintro w _ env rfl
    obtain ⟨henv, hheap⟩ := Prod.ext_iff.mp (w.heap.push_erase (some env))
    exact ⟨henv, congrArg (fun h => World.mk h _ _) hheap⟩
  write := by
    rintro w _ added rfl
    exact congrArg (World.mk _ · _) String.append_assoc
  close := by
    rintro w _ rfl
    exact ⟨rfl, rfl⟩

/-! ## Programs -/

/-- The end of some statements; if there are none, it is the value `last`. -/
def Stmt.runAll (limit : Nat) (env : Env) (ss : List Stmt) (last : Value) (w : World) :
    Value × World :=
  (Stmt.evalAll (applyWithin limit limit) env ss last).settle w

theorem Program.run_eq_runAll (limit : Nat) (env : Env) (p : Program) (w : World) :
    Program.run limit env p w = ((Stmt.runAll limit env p .null w).1.unwrapReturn,
      (Stmt.runAll limit env p .null w).2) := rfl

section Programs

variable (limit : Nat) (env : Env)

theorem Stmt.runAll_erase (ss : List Stmt) (last : Value) (w : World) (text : String) :
    Stmt.runAll limit env (Stmt.eraseAll ss) last.erase (w.erase.prepend text) =
      ((Stmt.runAll limit env ss last w).1.erase,
        (Stmt.runAll limit env ss last w).2.erase.prepend text) := by
  have h := mirrored_erase text
  have happly := applyWithin_mirrors h limit limit
  exact Prod.ext_iff.mpr ((Stmt.evalAll_mirrors h happly env ss last).settle rfl)

/-- Statements that are the same but for their places do the same, in worlds that are the same but
for theirs and for the text that had been written before. -/
theorem Stmt.runAll_alike {ss ts : List Stmt} (hss : Stmt.eraseAll ss = Stmt.eraseAll ts)
    {last last' : Value} (hlast : last.erase = last'.erase) {w w' : World} {text text' : String}
    (hw : w.erase.prepend text = w'.erase.prepend text') :
    (Stmt.runAll limit env ss last w).1.erase = (Stmt.runAll limit env ts last' w').1.erase ∧
      (Stmt.runAll limit env ss last w).2.erase.prepend text =
        (Stmt.runAll limit env ts last' w').2.erase.prepend text' := by
  have hrun := Stmt.runAll_erase limit env ss last w text
  rw [hss, hlast, hw, Stmt.runAll_erase] at hrun
  exact Prod.ext_iff.mp hrun.symm

theorem Program.run_alike {p q : Program} (hp : p.erase = q.erase) {w w' : World}
    {text text' : String} (hw : w.erase.prepend text = w'.erase.prepend text') :
    (Program.run limit env p w).1.erase = (Program.run limit env q w').1.erase ∧
      (Program.run limit env p w).2.erase.prepend text =
        (Program.run limit env q w').2.erase.prepend text' := by
  obtain ⟨hvalue, hworld⟩ := Stmt.runAll_alike limit env hp (rfl : Value.null.erase = _) hw
  rw [Program.run_eq_runAll, Program.run_eq_runAll]
  refine ⟨?_, hworld⟩
  rw [Value.erase, Value.erase, ← Value.unwrapReturn_rename, ← Value.unwrapReturn_rename]
  exact congrArg Value.unwrapReturn hvalue

end Programs

end Monkey
