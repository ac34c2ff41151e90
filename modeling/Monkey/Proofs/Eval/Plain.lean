import Monkey.Proofs.Eval.Ensures
import Monkey.Proofs.Value.Contents

/-!
# Signals are not stored

A signal is on its way out as soon as it arises, so that no array, hash or scope ever holds one, and
the value that a `return` takes along holds none either.
-/

namespace Monkey

/-! ## Values without signals -/

/-- Neither a signal nor a value with a signal inside. -/
abbrev Value.Plain : Value → Prop := Value.Each (fun _ => True) False

abbrev Value.PlainAll : List Value → Prop := Value.EachAll (fun _ => True) False

abbrev Signal.Plain : Signal → Prop := Signal.Each (fun _ => True) False

/-! ## Worlds -/

/-- No scope binds a name to a signal, nor to a value with one inside. -/
def Heap.Plain (h : Heap) : Prop :=
  h.All Value.Plain

def World.Plain (w : World) : Prop :=
  w.heap.Plain

/-! ## Evaluation -/

namespace Eval

/-- The evaluation stores no signal, and ends with a value or a signal that holds none. -/
abbrev Clean {α : Type} (m : Eval α) (P : α → Prop) : Prop :=
  Ensures World.Plain Signal.Plain m P

theorem clean_raise {v : Value} (h : v.Plain) : Clean (raise v) Value.Plain := by
  cases v with
  | signal s => exact h.1.elim
  | _ => exact .pure h

theorem clean_lift (span : Span) {r : Except FaultCause Value} (h : ∀ v, r = .ok v → v.Plain) :
    Clean (lift span r) Value.Plain :=
  .lift (fun v hv => clean_raise (h v hv)) fun _ _ => trivial

theorem clean_declare (env : Env) (name : String) {v : Value} (h : v.Plain) :
    Clean (Eval.declare env name v) (fun _ => True) :=
  .modifyGet fun _ hw => ⟨trivial, hw.declare env name h⟩

/-- Calls with arguments that hold no signal. -/
abbrev CleanCalls (apply : Apply) : Prop :=
  ∀ f vs s, Value.PlainAll vs → Clean (apply f vs s) Value.Plain

theorem clean_rules {apply : Apply} (h : CleanCalls apply) (env : Env) :
    Rules World.Plain Signal.Plain Value.Plain (fun _ => True) apply env where
  part _ _ _ _ := trivial
  int _ := trivial
  bool _ := trivial
  str _ := trivial
  null := trivial
  nil := trivial
  cons _ _ hv hvs := ⟨hv, hvs⟩
  empty := trivial
  put k _ _ hv hes := Value.each_put k hv hes
  ret _ hv := hv
  name _ _ _ := .ofName (fun _ _ hw hv => hw.lookup hv) (fun _ => clean_raise)
    (fun _ => trivial) trivial
  unary _ _ s _ _ _ := clean_lift s fun _ => Value.each_unary
  binary _ _ _ s _ _ _ _ _ := clean_lift s fun _ => Value.each_binary
  index _ _ s _ _ _ ha _ := clean_lift s fun _ => Value.each_index ha
  close _ _ _ _ := .modifyGet fun _ hw => ⟨trivial, hw⟩
  call _ _ s f vs _ _ hvs := h f vs s hvs
  key _ _ _ _ _ _ _ := .toKey fun _ _ => trivial
  declare x _ _ _ _ hv := clean_declare env x.name hv

end Eval

open Eval

section Trees

variable {apply : Apply} (h : CleanCalls apply) {env : Env}

include h

theorem Expr.eval_clean (e : Expr) : Clean (e.eval apply env) Value.Plain :=
  e.eval_ensures (clean_rules h env) trivial

theorem Stmt.eval_clean (s : Stmt) : Clean (s.eval apply env) Value.Plain :=
  s.eval_ensures (clean_rules h env) trivial

theorem Stmt.evalAll_clean (ss : List Stmt) (last : Value) (hlast : last.Plain) :
    Clean (Stmt.evalAll apply env ss last) Value.Plain :=
  Stmt.evalAll_ensures (clean_rules h env) ss (fun _ _ => trivial) last hlast

theorem Block.eval_clean (b : Block) : Clean (b.eval apply env) Value.Plain :=
  b.eval_ensures (clean_rules h env) trivial

end Trees

/-! ## Calls -/

theorem Closure.run_clean {apply : Apply} (h : CleanCalls apply) (c : Closure) {args : List Value}
    (hargs : Value.PlainAll args) : Clean (c.run apply args) Value.Plain := by
  have henter : Clean (enter c.env) (fun _ => True) :=
    .modifyGet fun _ hw => ⟨trivial, hw.push (some c.env)⟩
  exact Closure.run_ensures ((Value.eachAll_iff args).mp hargs) henter
    (fun env _ name _ => clean_declare env name) (fun _ _ => c.body.eval_clean h)
    fun _ => clean_raise

theorem applyVia_clean {enter : Closure → List Value → Eval Value}
    (henter : ∀ c args, Value.PlainAll args → Clean (enter c args) Value.Plain) :
    CleanCalls (applyVia enter) := fun _ args _ hargs =>
  applyVia_ensures (fun c _ => henter c args hargs) (fun _ _ hw => hw)
    (fun _ _ h => clean_raise (Builtin.each_call hargs h)) fun _ _ => trivial

theorem applyWithin_clean (limit n : Nat) : CleanCalls (applyWithin limit n) := by
  induction n with
  | zero =>
      intro f args span hargs
      exact applyVia_clean (fun _ _ _ => .throw (s := .fault _) trivial) f args span hargs
  | succ n ih => exact applyVia_clean fun c _ hargs => c.run_clean ih hargs

/-! ## Sessions -/

/-- The worlds that evaluations lead to, in new environments and in scopes inside them. -/
inductive World.Reachable : World → Prop
  | empty : Reachable .empty
  | newEnv {w} : Reachable w → Reachable w.newEnv.2
  | newScope {w} (env : Env) : Reachable w → Reachable (w.newScope env).2
  | takeOutput {w} : Reachable w → Reachable w.takeOutput.2
  | run {w} (limit n : Nat) (env : Env) (node : Node) :
      Reachable w → Reachable (node.run limit n env w).2

/-- What a statement or an expression ends with. -/
inductive Value.Ends : Value → Prop
  | plain {v} : v.Plain → Ends v
  | ret {v} : v.Plain → Ends (.signal (.ret v))
  | fault (f : Fault) : Ends (.signal (.fault f))

theorem Eval.Ensures.settle_ends {m : Eval Value} {w : World} (h : Clean m Value.Plain)
    (hw : w.Plain) : (m.settle w).1.Ends ∧ (m.settle w).2.Plain := by
  have hm := h w hw
  rw [Eval.settle]
  cases hr : m w with
  | ok v w' =>
      rw [hr] at hm
      exact ⟨.plain hm.1, hm.2⟩
  | error s w' =>
      rw [hr] at hm
      cases s with
      | ret v => exact ⟨.ret hm.1, hm.2⟩
      | fault f => exact ⟨.fault f, hm.2⟩

/-- Outside all functions a returned value is a value like any other. -/
theorem Value.Ends.unwrapReturn {v : Value} (h : v.Ends) :
    v.unwrapReturn.Plain ∨ ∃ f, v.unwrapReturn = .signal (.fault f) := by
  cases h with
  | @plain v h =>
      cases v with
      | signal s => exact h.1.elim
      | _ => exact .inl h
  | ret h => exact .inl h
  | fault f => exact .inr ⟨f, rfl⟩

section Nodes

variable (limit n : Nat) (env : Env) {w : World}

theorem Expr.run_ends (e : Expr) (hw : w.Plain) : ((Node.expr e).run limit n env w).1.Ends ∧
    ((Node.expr e).run limit n env w).2.Plain :=
  (e.eval_clean (applyWithin_clean limit n)).settle_ends hw

theorem Stmt.run_ends (s : Stmt) (hw : w.Plain) : ((Node.stmt s).run limit n env w).1.Ends ∧
    ((Node.stmt s).run limit n env w).2.Plain :=
  (s.eval_clean (applyWithin_clean limit n)).settle_ends hw

theorem Program.run_ends (p : Program) (hw : w.Plain) :
    (((Node.program p).run limit n env w).1.Plain ∨
      ∃ f, ((Node.program p).run limit n env w).1 = .signal (.fault f)) ∧
    ((Node.program p).run limit n env w).2.Plain := by
  have hclean : Clean (Stmt.evalAll (applyWithin limit n) env p .null) Value.Plain :=
    Stmt.evalAll_clean (applyWithin_clean limit n) p .null trivial
  obtain ⟨hv, hw'⟩ := hclean.settle_ends hw
  exact ⟨hv.unwrapReturn, hw'⟩

end Nodes

theorem World.Reachable.plain {w : World} (h : w.Reachable) : w.Plain := by
  induction h with
  | empty => exact nofun
  | newEnv _ ih => exact Heap.All.push ih none
  | newScope env _ ih => exact Heap.All.push ih (some env)
  | takeOutput _ ih => exact ih
  | run limit n env node _ ih =>
      cases node with
      | expr e => exact (e.run_ends limit n env ih).2
      | stmt s => exact (s.run_ends limit n env ih).2
      | program p => exact (Program.run_ends limit n env p ih).2

/-- After any sequence of evaluations no scope holds a signal; the next evaluation of a program ends
with a value or a fault, and that of a statement or an expression perhaps with a returned value.
None of these values holds a signal. -/
theorem reachable_plain {w : World} (h : w.Reachable) :
    w.Plain ∧ ∀ (limit n : Nat) (env : Env),
      (∀ p : Program, (∀ v, ((Node.program p).run limit n env w).1 ≠ .signal (.ret v)) ∧
        (((Node.program p).run limit n env w).1.Plain ∨
          ∃ f, ((Node.program p).run limit n env w).1 = .signal (.fault f))) ∧
      (∀ s : Stmt, ((Node.stmt s).run limit n env w).1.Ends) ∧
      ∀ e : Expr, ((Node.expr e).run limit n env w).1.Ends := by
  refine ⟨h.plain, fun limit n env => ⟨fun p => ?_, fun s => ?_, fun e => ?_⟩⟩
  · have hp := (Program.run_ends limit n env p h.plain).1
    refine ⟨fun v hv => ?_, hp⟩
    rw [hv] at hp
    rcases hp with hp | ⟨f, hf⟩
    · exact hp.1
    · cases hf
  · exact (s.run_ends limit n env h.plain).1
  · exact (e.run_ends limit n env h.plain).1

/-- After `let f = fn(x) { return [x]; }; let a = f(7);` in a new environment. -/
theorem reachable_plain_returned_array :
    let s : Span := ⟨0, 0⟩
    let env := World.empty.newEnv.1
    let f := Expr.fn [⟨"x", s⟩] (.mk [.ret (.array [.ident "x" s] s) s] s) s
    let p : Program := [.bind ⟨"f", s⟩ f s, .bind ⟨"a", s⟩ (.call (.ident "f" s) [.int 7 s] s) s]
    let w := ((Node.program p).run 8 8 env World.empty.newEnv.2).2
    w.Reachable ∧ (w.heap.lookup env "a").map Value.text = some "[7]" ∧ w.Plain ∧
      ((Node.stmt (.ret (.ident "a" s) s)).run 8 8 env w).1.Ends := by
  intro s env f p w
  have h : w.Reachable := .run 8 8 env (.program p) (.newEnv .empty)
  obtain ⟨hplain, hends⟩ := reachable_plain h
  exact ⟨h, by decide +kernel, hplain, (hends 8 8 env).2.1 _⟩

end Monkey
