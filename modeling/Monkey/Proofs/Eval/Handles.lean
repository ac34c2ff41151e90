import Monkey.Proofs.Eval.Plain
import Monkey.Proofs.Eval.Renaming

/-!
# Handles do not dangle

A function that an evaluation ends with, or leaves in a scope, has its number from the world and was
made in a scope of the world. Scopes and numbers are never taken back, so a handle stays a handle on
the same scope.
-/

namespace Monkey

/-! ## Worlds -/

namespace World

/-- The handle is on a scope of the world. -/
def HasEnv (w : World) (env : Env) : Prop :=
  env.id < w.heap.scopes.size

/-- The function has its number from the world, and was made in a scope of it. -/
def Has (w : World) (c : Closure) : Prop :=
  w.HasEnv c.env ∧ c.id < w.functions

/-- A value whose functions the world has. -/
abbrev Holds (w : World) (v : Value) : Prop :=
  v.Each w.Has True

/-- The scopes of the world bind names to values only whose functions it has. -/
def Closed (w : World) : Prop :=
  w.heap.All w.Holds

/-- There are as many scopes and functions, or more. -/
structure Extends (w w' : World) : Prop where
  scopes : w.heap.scopes.size ≤ w'.heap.scopes.size
  functions : w.functions ≤ w'.functions

namespace Extends

variable {w w' w'' : World}

theorem refl (w : World) : w.Extends w :=
  ⟨Nat.le_refl _, Nat.le_refl _⟩

theorem trans (h : w.Extends w') (h' : w'.Extends w'') : w.Extends w'' :=
  ⟨Nat.le_trans h.scopes h'.scopes, Nat.le_trans h.functions h'.functions⟩

theorem hasEnv {env : Env} (h : w.Extends w') (henv : w.HasEnv env) : w'.HasEnv env :=
  Nat.lt_of_lt_of_le henv h.scopes

theorem has (h : w.Extends w') (c : Closure) (hc : w.Has c) : w'.Has c :=
  ⟨h.hasEnv hc.1, Nat.lt_of_lt_of_le hc.2 h.functions⟩

theorem push (w : World) (parent : Option Env) :
    w.Extends { w with heap := (w.heap.push parent).2 } :=
  ⟨by simp [Heap.push], Nat.le_refl _⟩

theorem declare (w : World) (env : Env) (name : String) (v : Value) :
    w.Extends { w with heap := w.heap.declare env name v } :=
  ⟨by simp [Heap.declare], Nat.le_refl _⟩

end Extends

namespace Closed

variable {w : World}

theorem push (h : w.Closed) (parent : Option Env) :
    Closed { w with heap := (w.heap.push parent).2 } :=
  (Heap.All.push h parent).mono fun _ hv => hv.mono (Extends.push w parent).has

theorem declare (h : w.Closed) (env : Env) (name : String) {v : Value} (hv : w.Holds v) :
    Closed { w with heap := w.heap.declare env name v } :=
  (Heap.All.declare h env name hv).mono fun _ hv => hv.mono (Extends.declare w env name v).has

theorem lookup (h : w.Closed) {env : Env} {name : String} {v : Value}
    (hv : w.heap.lookup env name = some v) : w.Holds v :=
  Heap.All.lookup h hv

end Closed

end World

/-! ## Evaluations -/

open World (Extends Holds)

namespace Eval

variable {α β : Type} {w : World} {P : World → α → Prop}

/-- From `w` the evaluation ends in a closed world that extends `w`, with a value as `P` says, or
with a signal whose functions that world has. -/
def Safe (w : World) (m : Eval α) (P : World → α → Prop) : Prop :=
  match m w with
  | .ok a w' => w.Extends w' ∧ w'.Closed ∧ P w' a
  | .error s w' => w.Extends w' ∧ w'.Closed ∧ s.Each w'.Has True

namespace Safe

theorem pure {a : α} (hw : w.Closed) (h : P w a) : Safe w (Pure.pure a) P :=
  ⟨.refl w, hw, h⟩

theorem throw {s : Signal} (hw : w.Closed) (h : s.Each w.Has True) :
    Safe w (MonadExcept.throw s : Eval α) P :=
  ⟨.refl w, hw, h⟩

theorem fail (hw : w.Closed) (cause : FaultCause) (span : Span) :
    Safe w (Eval.fail cause span : Eval α) P :=
  throw hw trivial

theorem bind {x : Eval β} {f : β → Eval α} {Q : World → β → Prop} (hx : Safe w x Q)
    (hf : ∀ w' b, w.Extends w' → w'.Closed → Q w' b → Safe w' (f b) P) : Safe w (x >>= f) P := by
  rw [Safe] at hx ⊢
  cases hr : x w with
  | error s w' =>
      rw [hr] at hx
      rw [bind_of_error hr]
      exact hx
  | ok b w' =>
      rw [hr] at hx
      obtain ⟨hext, hw', hb⟩ := hx
      have hfb := hf w' b hext hw' hb
      rw [Safe] at hfb
      rw [bind_of_ok hr]
      cases hr' : f b w' with
      | ok a w'' =>
          rw [hr'] at hfb
          exact ⟨hext.trans hfb.1, hfb.2⟩
      | error s w'' =>
          rw [hr'] at hfb
          exact ⟨hext.trans hfb.1, hfb.2⟩

theorem settle {m : Eval Value} (h : Safe w m Holds) : w.Extends (m.settle w).2 ∧
    (m.settle w).2.Closed ∧ (m.settle w).2.Holds (m.settle w).1 := by
  rw [Safe] at h
  rw [Eval.settle]
  cases hr : m w with
  | ok v w' =>
      rw [hr] at h
      exact h
  | error s w' =>
      rw [hr] at h
      exact ⟨h.1, h.2.1, trivial, h.2.2⟩

end Safe

theorem safe_raise {v : Value} (hw : w.Closed) (h : w.Holds v) : Safe w (raise v) Holds := by
  cases v with
  | signal s => exact .throw hw h.2
  | _ => exact .pure hw h

theorem safe_lift (span : Span) {r : Except FaultCause Value} (hw : w.Closed)
    (h : ∀ v, r = .ok v → w.Holds v) : Safe w (lift span r) Holds := by
  cases r with
  | ok v => exact safe_raise hw (h v rfl)
  | error cause => exact .fail hw cause span

theorem safe_ofName (env : Env) (name : String) (span : Span) (hw : w.Closed) :
    Safe w (Value.ofName env name span) Holds := by
  have hlookup : Safe w (lookup env name) fun w' o => ∀ v ∈ o, w'.Holds v :=
    ⟨.refl w, hw, fun _ hv => hw.lookup hv⟩
  refine .bind hlookup fun w' o _ hw' ho => ?_
  cases o with
  | some v => exact safe_raise hw' (ho v rfl)
  | none =>
      dsimp only
      split
      · exact .pure hw' trivial
      · exact .fail hw' _ span

theorem safe_toKey (v : Value) (span : Span) (hw : w.Closed) :
    Safe w (v.toKey span) fun _ _ => True := by
  rw [Value.toKey]
  split
  · exact .pure hw trivial
  · exact .fail hw _ span

theorem safe_declare (env : Env) (name : String) {v : Value} (hw : w.Closed) (h : w.Holds v) :
    Safe w (Eval.declare env name v) fun _ _ => True :=
  ⟨.declare w env name v, hw.declare env name h, trivial⟩

theorem safe_close (params : List Ident) (body : Block) {env : Env} (hw : w.Closed)
    (henv : w.HasEnv env) : Safe w (close params body env) Holds := by
  have hext : w.Extends { w with functions := w.functions + 1 } :=
    ⟨Nat.le_refl _, Nat.le_succ _⟩
  exact ⟨hext, Heap.All.mono hw fun _ hv => hv.mono hext.has, henv, Nat.lt_succ_self _⟩

/-- Calls of a function and with arguments that the world has. -/
def SafeCalls (apply : Apply) : Prop :=
  ∀ w f vs s, w.Closed → w.Holds f → Value.EachAll w.Has True vs → Safe w (apply f vs s) Holds

end Eval

open Eval

section Trees

variable {apply : Apply} {env : Env}

mutual
theorem Expr.eval_safe (h : SafeCalls apply) :
    (e : Expr) → ∀ {w : World}, w.Closed → w.HasEnv env →
    Safe w (e.eval apply env) Holds
  | .ident name s, _, hw, _ => safe_ofName env name s hw
  | .int _ _, _, hw, _ | .bool _ _, _, hw, _ | .str _ _, _, hw, _ => .pure hw trivial
  | .unary op operand s, _, hw, henv =>
      .bind (operand.eval_safe h hw henv) fun _ _ _ hw' _ =>
        safe_lift s hw' fun _ => Value.each_unary
  | .binary op lhs rhs s, _, hw, henv =>
      .bind (lhs.eval_safe h hw henv) fun _ _ hext hw' _ =>
        .bind (rhs.eval_safe h hw' (hext.hasEnv henv)) fun _ _ _ hw'' _ =>
          safe_lift s hw'' fun _ => Value.each_binary
  | .cond test yes none _, _, hw, henv => by
      refine .bind (test.eval_safe h hw henv) fun _ _ hext hw' _ => ?_
      split
      · exact yes.eval_safe h hw' (hext.hasEnv henv)
      · exact .pure hw' trivial
  | .cond test yes (some no) _, _, hw, henv => by
      refine .bind (test.eval_safe h hw henv) fun _ _ hext hw' _ => ?_
      split
      · exact yes.eval_safe h hw' (hext.hasEnv henv)
      · exact no.eval_safe h hw' (hext.hasEnv henv)
  | .fn params body _, _, hw, henv => safe_close params body hw henv
  | .call callee args s, _, hw, henv =>
      .bind (callee.eval_safe h hw henv) fun _ f hext hw' hf =>
        .bind (Expr.evalAll_safe h args hw' (hext.hasEnv henv)) fun w'' vs hext' hw'' hvs =>
          h w'' f vs s hw'' (hf.mono hext'.has) hvs
  | .array items _, _, hw, henv =>
      .bind (Expr.evalAll_safe h items hw henv) fun _ _ _ hw' hvs => .pure hw' hvs
  | .index object key s, _, hw, henv =>
      .bind (object.eval_safe h hw henv) fun _ _ hext hw' ha =>
        .bind (key.eval_safe h hw' (hext.hasEnv henv)) fun _ _ hext' hw'' _ =>
          safe_lift s hw'' fun _ => Value.each_index (ha.mono hext'.has)
  | .hash pairs _, _, hw, henv =>
      .bind (Expr.evalPairs_safe h pairs hw henv [] trivial) fun _ _ _ hw' hes =>
        .pure hw' hes

theorem Expr.evalAll_safe (h : SafeCalls apply) :
    (es : List Expr) → ∀ {w : World}, w.Closed → w.HasEnv env →
    Safe w (Expr.evalAll apply env es) fun w' => Value.EachAll w'.Has True
  | [], _, hw, _ => .pure hw trivial
  | e :: es, _, hw, henv =>
      .bind (e.eval_safe h hw henv) fun _ _ hext hw' hv =>
        .bind (Expr.evalAll_safe h es hw' (hext.hasEnv henv)) fun _ _ hext' hw'' hvs =>
          .pure hw'' ⟨hv.mono hext'.has, hvs⟩

theorem Expr.evalPairs_safe (h : SafeCalls apply) :
    (ps : List (Expr × Expr)) → ∀ {w : World}, w.Closed → w.HasEnv env →
    ∀ entries : List (HashKey × Value), Value.EachEntries w.Has True entries →
    Safe w (Expr.evalPairs apply env ps entries) fun w' => Value.EachEntries w'.Has True
  | [], _, hw, _, _, hes => .pure hw hes
  | (key, value) :: ps, _, hw, henv, _, hes =>
      .bind (key.eval_safe h hw henv) fun _ a hext hw' _ =>
        .bind (safe_toKey a key.span hw') fun _ k hext' hw'' _ =>
          .bind (value.eval_safe h hw'' ((hext.trans hext').hasEnv henv)) fun _ _ hext'' hw''' hv =>
            have hall := (hext.trans hext').trans hext''
            Expr.evalPairs_safe h ps hw''' (hall.hasEnv henv) _
              (Value.each_put k hv (hes.mono hall.has))

theorem Stmt.eval_safe (h : SafeCalls apply) :
    (s : Stmt) → ∀ {w : World}, w.Closed → w.HasEnv env →
    Safe w (s.eval apply env) Holds
  | .bind target value _, _, hw, henv =>
      .bind (value.eval_safe h hw henv) fun _ _ _ hw' hv =>
        .bind (safe_declare env target.name hw' hv) fun _ _ _ hw'' _ => .pure hw'' trivial
  | .ret value _, _, hw, henv =>
      .bind (value.eval_safe h hw henv) fun _ _ _ hw' hv => .throw hw' hv
  | .expr value _, _, hw, henv => value.eval_safe h hw henv
  | .block body, _, hw, henv => body.eval_safe h hw henv

theorem Stmt.evalAll_safe (h : SafeCalls apply) :
    (ss : List Stmt) → ∀ {w : World}, w.Closed → w.HasEnv env →
    ∀ last : Value, w.Holds last → Safe w (Stmt.evalAll apply env ss last) Holds
  | [], _, hw, _, _, hlast => .pure hw hlast
  | s :: ss, _, hw, henv, _, _ =>
      .bind (s.eval_safe h hw henv) fun _ _ hext hw' hv =>
        Stmt.evalAll_safe h ss hw' (hext.hasEnv henv) _ hv

theorem Block.eval_safe (h : SafeCalls apply) :
    (b : Block) → ∀ {w : World}, w.Closed → w.HasEnv env →
    Safe w (b.eval apply env) Holds
  | .mk stmts _, _, hw, henv => Stmt.evalAll_safe h stmts hw henv .null trivial
end

end Trees

/-! ## Calls -/

theorem Eval.safe_catchReturn {m : Eval Value} {w : World} (h : Safe w m Holds) :
    Safe w (catchReturn m) Holds := by
  rw [Safe] at h
  cases hr : m w with
  | ok v w' =>
      rw [hr] at h
      simpa only [Safe, catchReturn, hr] using h
  | error s w' =>
      rw [hr] at h
      cases s with
      | fault f => simpa only [Safe, catchReturn, hr] using h
      | ret v =>
          have hraise := safe_raise h.2.1 h.2.2
          rw [Safe] at hraise
          simp only [Safe, catchReturn, hr]
          cases hr' : raise v w' with
          | ok a w'' =>
              rw [hr'] at hraise
              exact ⟨h.1.trans hraise.1, hraise.2⟩
          | error s w'' =>
              rw [hr'] at hraise
              exact ⟨h.1.trans hraise.1, hraise.2⟩

theorem Eval.safe_declareAll (env : Env) : ∀ (ps : List Ident) (vs : List Value) {w : World},
    w.Closed → Value.EachAll w.Has True vs → Safe w (declareAll env ps vs) fun _ _ => True
  | p :: ps, _ :: vs, _, hw, hvs =>
      .bind (safe_declare env p.name hw hvs.1) fun _ _ hext hw' _ =>
        safe_declareAll env ps vs hw' (hvs.2.mono hext.has)
  | [], _, _, hw, _ => .pure hw trivial
  | _ :: _, [], _, hw, _ => .pure hw trivial

theorem Closure.run_safe {apply : Apply} (h : SafeCalls apply) (c : Closure) {args : List Value}
    {w : World} (hw : w.Closed) (hargs : Value.EachAll w.Has True args) :
    Safe w (c.run apply args) Holds := by
  have henter : Safe w (enter c.env) fun w' env => w'.HasEnv env :=
    ⟨.push w _, hw.push _, by simp [World.HasEnv]⟩
  exact .bind henter fun _ env hext hw' henv =>
    .bind (safe_declareAll env c.params args hw' (hargs.mono hext.has)) fun _ _ hext' hw'' _ =>
      safe_catchReturn (c.body.eval_safe h hw'' (hext'.hasEnv henv))

theorem applyVia_safe {enter : Closure → List Value → Eval Value}
    (henter : ∀ c args (w : World), w.Closed → Value.EachAll w.Has True args →
      Safe w (enter c args) Holds) : SafeCalls (applyVia enter) := by
  intro w f args span hw _ hargs
  cases f with
  | closure c =>
      dsimp only [applyVia]
      split
      · exact henter c args w hw hargs
      · exact .fail hw _ span
  | builtin b =>
      have hwrite : Safe w (write (b.written args)) fun w' _ => Value.EachAll w'.Has True args :=
        ⟨⟨Nat.le_refl _, Nat.le_refl _⟩, hw, hargs⟩
      exact .bind hwrite fun _ _ _ hw' hargs' =>
        safe_lift span hw' fun _ => Builtin.each_call hargs'
  | _ => exact .fail hw _ span

theorem applyWithin_safe (limit n : Nat) : SafeCalls (applyWithin limit n) := by
  induction n with
  | zero =>
      intro w f args span hw hf hargs
      exact applyVia_safe (fun _ _ _ hw _ => .fail hw _ span) w f args span hw hf hargs
  | succ n ih => exact applyVia_safe fun c _ _ hw hargs => c.run_safe ih hw hargs

/-! ## Sessions -/

/-- However an evaluation ends, it ends in a closed world, with a value whose functions that world
has. -/
theorem Node.run_safe (limit n : Nat) {env : Env} (node : Node) {w : World} (hw : w.Closed)
    (henv : w.HasEnv env) : w.Extends (node.run limit n env w).2 ∧
      (node.run limit n env w).2.Closed ∧
      (node.run limit n env w).2.Holds (node.run limit n env w).1 := by
  have hcalls := applyWithin_safe limit n
  cases node with
  | expr e => exact (e.eval_safe hcalls hw henv).settle
  | stmt s => exact (s.eval_safe hcalls hw henv).settle
  | program p =>
      obtain ⟨hext, hw', hv⟩ :=
        (Stmt.evalAll_safe hcalls p hw henv .null trivial).settle
      refine ⟨hext, hw', ?_⟩
      simp only [Node.run]
      generalize ((Stmt.evalAll (applyWithin limit n) env p .null).settle w) = r at hv
      obtain ⟨v, w'⟩ := r
      cases v with
      | signal s =>
          cases s with
          | ret v => exact hv.2
          | fault f => exact hv
      | _ => exact hv

/-- The worlds of a session in which every handle comes from the session: new environments and
scopes in them, names bound to its values, and trees evaluated. -/
inductive World.Reached : World → Prop
  | empty : Reached .empty
  | newEnv {w} : Reached w → Reached w.newEnv.2
  | newScope {w env} : Reached w → w.HasEnv env → Reached (w.newScope env).2
  | declare {w env v} (name : String) : Reached w → w.HasEnv env → w.Holds v →
      Reached { w with heap := w.heap.declare env name v }
  | takeOutput {w} : Reached w → Reached w.takeOutput.2
  | run {w env} (limit n : Nat) (node : Node) : Reached w → w.HasEnv env →
      Reached (node.run limit n env w).2

theorem World.Reached.closed {w : World} (h : w.Reached) : w.Closed := by
  induction h with
  | empty => exact nofun
  | newEnv _ ih => exact ih.push none
  | newScope _ _ ih => exact ih.push _
  | declare name _ _ hv ih => exact ih.declare _ name hv
  | takeOutput _ ih => exact ih
  | run limit n node _ henv ih => exact (node.run_safe limit n ih henv).2.1

end Monkey
