import Monkey.Proofs.Eval.Ensures
import Monkey.Proofs.Eval.Machine

/-!
# Every evaluation ends

The machine brings whatever it works on to its end, and that is the value or the signal which
evaluation by recursion gives. Until then it enters only states of a lower rank: fewer calls are
left, or as many and the tree is smaller, or both are the same and the scope is older in which a
name is looked for.
-/

namespace Monkey

/-! ## The size of a tree -/

mutual
/-- The number of nodes; a list counts as one more. -/
@[simp] def Expr.size : Expr → Nat
  | .ident _ _ | .int _ _ | .bool _ _ | .str _ _ => 1
  | .unary _ operand _ => operand.size + 1
  | .binary _ lhs rhs _ => lhs.size + rhs.size + 1
  | .cond test yes none _ => test.size + yes.size + 1
  | .cond test yes (some no) _ => test.size + yes.size + no.size + 1
  | .fn _ body _ => body.size + 1
  | .call callee args _ => callee.size + Expr.sizeAll args + 1
  | .array items _ => Expr.sizeAll items + 1
  | .index object key _ => object.size + key.size + 1
  | .hash pairs _ => Expr.sizePairs pairs + 1

@[simp] def Expr.sizeAll : List Expr → Nat
  | [] => 1
  | e :: es => e.size + Expr.sizeAll es

@[simp] def Expr.sizePairs : List (Expr × Expr) → Nat
  | [] => 1
  | (key, value) :: ps => key.size + value.size + Expr.sizePairs ps

@[simp] def Stmt.size : Stmt → Nat
  | .bind _ value _ | .ret value _ | .expr value _ => value.size + 1
  | .block body => body.size + 1

@[simp] def Stmt.sizeAll : List Stmt → Nat
  | [] => 1
  | s :: ss => s.size + Stmt.sizeAll ss

def Block.size : Block → Nat
  | .mk stmts _ => Stmt.sizeAll stmts
end

@[simp] theorem Block.size_eq (b : Block) : b.size = Stmt.sizeAll b.stmts := by
  cases b
  rfl

theorem Expr.size_pos (e : Expr) : 0 < e.size := by
  cases e with
  | cond test yes no s => cases no <;> exact Nat.succ_pos _
  | _ => exact Nat.succ_pos _

theorem Stmt.size_pos (s : Stmt) : 0 < s.size := by
  cases s <;> exact Nat.succ_pos _

theorem Expr.sizeAll_pos (es : List Expr) : 0 < Expr.sizeAll es := by
  cases es with
  | nil => exact Nat.succ_pos _
  | cons e es => exact Nat.add_pos_left e.size_pos _

theorem Expr.sizePairs_pos (ps : List (Expr × Expr)) : 0 < Expr.sizePairs ps := by
  cases ps with
  | nil => exact Nat.succ_pos _
  | cons p ps => exact Nat.add_pos_left (Nat.add_pos_left p.1.size_pos _) _

theorem Stmt.sizeAll_pos (ss : List Stmt) : 0 < Stmt.sizeAll ss := by
  cases ss with
  | nil => exact Nat.succ_pos _
  | cons s ss => exact Nat.add_pos_left s.size_pos _

namespace Machine

open Control

/-! ## Ranks -/

/-- The size of the tree that is worked on. -/
@[simp] def Control.size : Control → Nat
  | expr _ e => e.size
  | items _ _ todo _ => Expr.sizeAll todo
  | pairs _ todo _ => Expr.sizePairs todo
  | stmt _ s => s.size
  | stmts _ todo _ => Stmt.sizeAll todo
  | seek _ _ _ | apply _ _ _ | give _ | raise _ => 0

/-- How many scopes may still be looked at; a call, too, comes before its outcome. -/
@[simp] def Control.reach : Control → Nat
  | seek env _ _ => env.id + 1
  | apply _ _ _ => 1
  | _ => 0

/-- The calls left, then the size of the tree, then the scopes left. -/
def State.rank (limit : Nat) (s : State) : Nat × Nat × Nat :=
  (limit - s.depth, s.control.size, s.control.reach)

/-- The lexicographic order, which is well-founded. -/
def Lower : Nat × Nat × Nat → Nat × Nat × Nat → Prop :=
  Prod.Lex (· < ·) (Prod.Lex (· < ·) (· < ·))

theorem lower_wellFounded : WellFounded Lower :=
  (Prod.lex ⟨_, Nat.lt_wfRel.wf⟩ ⟨_, (Prod.lex Nat.lt_wfRel Nat.lt_wfRel).wf⟩).wf

/-- A run through states of a lower rank. -/
def Descends (limit : Nat) (r : Nat × Nat × Nat) : State → State → Prop :=
  Path limit fun t => Lower (t.rank limit) r

section Ranks

variable {limit : Nat} {n m i j : Nat} {t : State}

theorem Lower.of_calls {x y : Nat × Nat} (h : n < m) : Lower (n, x) (m, y) :=
  .left _ _ h

theorem Lower.of_size (h : n < m) : Lower (limit, n, i) (limit, m, j) :=
  .right _ (.left _ _ h)

theorem Lower.of_reach (h : i < j) : Lower (limit, n, i) (limit, n, j) :=
  .right _ (.right _ h)

theorem Lower.trans {x y z : Nat × Nat × Nat} (h : Lower x y) (h' : Lower y z) : Lower x z := by
  simp only [Lower, Prod.lex_def] at h h' ⊢
  omega

end Ranks

/-! ## Outcomes -/

/-- Something has come to its end, and this is its outcome. -/
def State.ended (k : List Frame) (d : Nat) : EStateM.Result Signal World Value → State
  | .ok v w => ⟨give v, k, d, w⟩
  | .error s w => ⟨raise s, k, d, w⟩

/-- The value or the signal in a state where nothing is left to do. -/
def State.outcome (s : State) : Value × World :=
  match s.control with
  | raise r => (.signal r, s.world)
  | give v => (v, s.world)
  | _ => (.null, s.world)

section Outcomes

variable (k : List Frame) (d : Nat) (w : World)

theorem ended_raise (v : Value) : State.ended k d (Eval.raise v w) = ⟨ofValue v, k, d, w⟩ := by
  cases v <;> rfl

theorem ended_lift (span : Span) (r : Except FaultCause Value) :
    State.ended k d (Eval.lift span r w) = ⟨ofExcept span r, k, d, w⟩ := by
  cases r with
  | ok v => exact ended_raise k d w v
  | error cause => rfl

theorem lookup_bind {α : Type} (env : Env) (name : String) (f : Option Value → Eval α) :
    (Eval.lookup env name >>= f) w = f (w.heap.lookup env name) w := rfl

theorem ended_ofName (env : Env) (name : String) (span : Span) :
    State.ended k d (Value.ofName env name span w) =
      ⟨ofLookup name span (w.heap.lookup env name), k, d, w⟩ := by
  rw [Value.ofName, lookup_bind]
  cases w.heap.lookup env name with
  | some v => exact ended_raise k d w v
  | none =>
      simp only [ofLookup]
      cases Builtin.ofName? name <;> rfl

end Outcomes

/-- The control is an outcome: of these, nothing is left to evaluate. -/
def Control.IsOutcome (c : Control) : Prop :=
  c.size = 0 ∧ c.reach = 0

theorem isOutcome_ofValue (v : Value) : (ofValue v).IsOutcome := by
  cases v <;> exact ⟨rfl, rfl⟩

theorem isOutcome_ofExcept (span : Span) (r : Except FaultCause Value) :
    (ofExcept span r).IsOutcome := by
  cases r with
  | ok v => exact isOutcome_ofValue v
  | error cause => exact ⟨rfl, rfl⟩

theorem isOutcome_ofLookup (name : String) (span : Span) (o : Option Value) :
    (ofLookup name span o).IsOutcome := by
  cases o with
  | some v => exact isOutcome_ofValue v
  | none =>
      simp only [ofLookup]
      split <;> exact ⟨rfl, rfl⟩

namespace Descends

variable {limit d σ τ i : Nat} {r : Nat × Nat × Nat} {s t u : State} {k : List Frame} {w : World}

theorem trans (h : Descends limit r s t) (h' : Descends limit r t u) : Descends limit r s u :=
  Path.trans h h'

theorem next (h : s.step limit = some t) (hd : t.depth = d) (hσ : t.control.size < σ)
    (h' : Descends limit (limit - d, σ, i) t u) : Descends limit (limit - d, σ, i) s u :=
  .step h (hd ▸ .of_size hσ) h'

/-- The step to an outcome. -/
theorem last (h : s.step limit = some t) (hd : t.depth = d) (ho : t.control.IsOutcome)
    (hσ : 0 < σ) (ht : t = u) : Descends limit (limit - d, σ, i) s u :=
  next h hd (ho.1 ▸ hσ) (ht ▸ .refl t)

/-- The part of an evaluation that waits for a value; a signal may come instead. -/
theorem await {f : Frame} {x : Eval Value} {g : Value → Eval Value}
    (hx : Descends limit (limit - d, σ, i) s (.ended (f :: k) d (x w))) (hf : f ≠ .call)
    (hσ : 0 < σ) (hg : ∀ v w', Descends limit (limit - d, σ, i) ⟨give v, f :: k, d, w'⟩
      (.ended k d (g v w'))) :
    Descends limit (limit - d, σ, i) s (.ended k d ((x >>= g) w)) := by
  cases hr : x w with
  | ok v w' =>
      rw [hr] at hx
      rw [bind_of_ok hr]
      exact hx.trans (hg v w')
  | error r w' =>
      rw [hr] at hx
      rw [bind_of_error hr]
      have hunwind : unwind r k d w' f = ⟨raise r, k, d, w'⟩ := by
        cases f <;> first | rfl | exact absurd rfl hf
      exact hx.trans (last (congrArg some hunwind) rfl ⟨rfl, rfl⟩ hσ rfl)

end Descends

/-- The machine brings `c` to the end that `m` comes to. -/
def Ends (limit d : Nat) (c : Control) (m : Eval Value) : Prop :=
  ∀ k w, Descends limit (limit - d, c.size, c.reach) ⟨c, k, d, w⟩ (.ended k d (m w))

/-- As part of the evaluation of a larger tree. -/
theorem Ends.part {limit d σ i : Nat} {c : Control} {m : Eval Value} (h : Ends limit d c m)
    (hσ : c.size < σ) {k : List Frame} {w : World} :
    Descends limit (limit - d, σ, i) ⟨c, k, d, w⟩ (.ended k d (m w)) :=
  Path.mono (h k w) fun _ ht => ht.trans (.of_size hσ)

/-! ## Trees -/

/-- What becomes of a list of values. -/
def Use.finish (apply : Eval.Apply) : Use → List Value → Eval Value
  | .call f span, vs => apply f vs span
  | .array, vs => return .array vs

section Trees

open Descends (next last await)

variable {limit d : Nat} {apply : Eval.Apply}

/-- A search is over, or it goes on in an older scope. -/
theorem seekIn_cases (env : Env) (name : String) (span : Span) (w : World) :
    seekIn env name span w = ofLookup name span (w.heap.lookup env name) ∨
      ∃ p, seekIn env name span w = seek p name span ∧ p.id < env.id ∧
        w.heap.lookup env name = w.heap.lookup p name := by
  rw [seekIn, Heap.lookup_eq]
  cases hs : w.heap.scopes[env.id]? with
  | none => exact .inl rfl
  | some s =>
      obtain ⟨hlt, rfl⟩ := Array.getElem?_eq_some_iff.mp hs
      dsimp only
      cases Entries.get? name w.heap.scopes[env.id].bindings with
      | some v => exact .inl rfl
      | none =>
          dsimp only
          cases hp : w.heap.scopes[env.id].parent with
          | none => exact .inl rfl
          | some p => exact .inr ⟨p, rfl, w.heap.parent_lt env.id hlt p hp, rfl⟩

theorem seek_ends (name : String) (span : Span) (env : Env) :
    Ends limit d (seek env name span) (Value.ofName env name span) := by
  generalize hn : env.id = n
  induction n using Nat.strongRecOn generalizing env with
  | ind n ih =>
      intro k w
      have hend := ended_ofName k d w env name span
      have hstep : (State.mk (seek env name span) k d w).step limit =
          some ⟨seekIn env name span w, k, d, w⟩ := rfl
      rcases seekIn_cases env name span w with hdone | ⟨p, hnext, hlt, hlookup⟩
      · rw [hdone] at hstep
        rw [hend]
        refine .step hstep ?_ (.refl _)
        simp only [State.rank, (isOutcome_ofLookup name span _).1,
          (isOutcome_ofLookup name span _).2]
        exact .of_reach (Nat.succ_pos _)
      · rw [hnext] at hstep
        rw [hend, hlookup, ← ended_ofName]
        have hlow : Lower (limit - d, 0, p.id + 1) (limit - d, 0, env.id + 1) :=
          .of_reach (Nat.succ_lt_succ hlt)
        exact .step hstep hlow ((ih p.id (hn ▸ hlt) p rfl k w).mono fun _ ht => ht.trans hlow)

/-- Calls come to their end. -/
abbrev Calls (limit d : Nat) (apply : Eval.Apply) : Prop :=
  ∀ f args span, Ends limit d (.apply f args span) (apply f args span)

mutual
theorem Expr.ends (h : Calls limit d apply) (env : Env) :
    (e : Expr) → Ends limit d (expr env e) (e.eval apply env)
  | .ident name s, _, _ => next rfl rfl Nat.one_pos ((seek_ends name s env).part Nat.one_pos)
  | .int _ _, _, _ => last rfl rfl ⟨rfl, rfl⟩ Nat.one_pos rfl
  | .bool _ _, _, _ => last rfl rfl ⟨rfl, rfl⟩ Nat.one_pos rfl
  | .str _ _, _, _ => last rfl rfl ⟨rfl, rfl⟩ Nat.one_pos rfl
  | .unary op operand s, k, w => by
      have ho : operand.size < (Expr.unary op operand s).size := by simp
      refine next rfl rfl ho (await ((Expr.ends h env operand).part ho) nofun (Nat.succ_pos _)
        fun v w' => ?_)
      exact last rfl rfl (isOutcome_ofExcept _ _) (Nat.succ_pos _) (ended_lift k d w' s _).symm
  | .binary op lhs rhs s, k, w => by
      have hl : lhs.size < (Expr.binary op lhs rhs s).size := by
        simp only [Expr.size]
        omega
      have hr : rhs.size < (Expr.binary op lhs rhs s).size := by
        simp only [Expr.size]
        omega
      refine next rfl rfl hl (await ((Expr.ends h env lhs).part hl) nofun (Nat.succ_pos _)
        fun a w' => ?_)
      refine next rfl rfl hr (await ((Expr.ends h env rhs).part hr) nofun (Nat.succ_pos _)
        fun b w'' => ?_)
      exact last rfl rfl (isOutcome_ofExcept _ _) (Nat.succ_pos _) (ended_lift k d w'' s _).symm
  | .cond test yes none s, k, w => by
      have ht : test.size < (Expr.cond test yes none s).size := by
        simp only [Expr.size, Block.size_eq]
        omega
      have hy : Stmt.sizeAll yes.stmts < (Expr.cond test yes none s).size := by
        simp only [Expr.size, Block.size_eq]
        omega
      refine next rfl rfl ht (await ((Expr.ends h env test).part ht) nofun (Nat.succ_pos _)
        fun v w' => ?_)
      cases hv : v.isTruthy with
      | true =>
          rw [if_pos rfl]
          exact next (congrArg some (if_pos hv)) rfl hy ((Block.ends h env yes).part hy)
      | false =>
          rw [if_neg nofun]
          exact last (congrArg some (if_neg (by simp [hv]))) rfl ⟨rfl, rfl⟩ (Nat.succ_pos _) rfl
  | .cond test yes (some no) s, k, w => by
      have ht : test.size < (Expr.cond test yes (some no) s).size := by
        simp only [Expr.size, Block.size_eq]
        omega
      have hy : Stmt.sizeAll yes.stmts < (Expr.cond test yes (some no) s).size := by
        simp only [Expr.size, Block.size_eq]
        omega
      have hn : Stmt.sizeAll no.stmts < (Expr.cond test yes (some no) s).size := by
        simp only [Expr.size, Block.size_eq]
        omega
      refine next rfl rfl ht (await ((Expr.ends h env test).part ht) nofun (Nat.succ_pos _)
        fun v w' => ?_)
      cases hv : v.isTruthy with
      | true =>
          rw [if_pos rfl]
          exact next (congrArg some (if_pos hv)) rfl hy ((Block.ends h env yes).part hy)
      | false =>
          rw [if_neg nofun]
          exact next (congrArg some (if_neg (by simp [hv]))) rfl hn ((Block.ends h env no).part hn)
  | .fn _ _ _, _, _ => last rfl rfl ⟨rfl, rfl⟩ (Nat.succ_pos _) rfl
  | .call callee args s, k, w => by
      have hc : callee.size < (Expr.call callee args s).size := by
        simp only [Expr.size]
        omega
      have ha : Expr.sizeAll args < (Expr.call callee args s).size := by
        simp only [Expr.size]
        omega
      refine next rfl rfl hc (await ((Expr.ends h env callee).part hc) nofun (Nat.succ_pos _)
        fun f w' => ?_)
      exact next rfl rfl ha ((Expr.ends_all h env (.call f s) args []).part ha)
  | .array es s, k, w => by
      have hes : Expr.sizeAll es < (Expr.array es s).size := by simp
      exact next rfl rfl hes ((Expr.ends_all h env .array es []).part hes)
  | .index object key s, k, w => by
      have ho : object.size < (Expr.index object key s).size := by
        simp only [Expr.size]
        omega
      have hk : key.size < (Expr.index object key s).size := by
        simp only [Expr.size]
        omega
      refine next rfl rfl ho (await ((Expr.ends h env object).part ho) nofun (Nat.succ_pos _)
        fun a w' => ?_)
      refine next rfl rfl hk (await ((Expr.ends h env key).part hk) nofun (Nat.succ_pos _)
        fun b w'' => ?_)
      exact last rfl rfl (isOutcome_ofExcept _ _) (Nat.succ_pos _) (ended_lift k d w'' s _).symm
  | .hash ps s, k, w => by
      have hps : Expr.sizePairs ps < (Expr.hash ps s).size := by simp
      exact next rfl rfl hps ((Expr.ends_pairs h env ps []).part hps)

theorem Expr.ends_all (h : Calls limit d apply) (env : Env) (use : Use) :
    (es : List Expr) → (done : List Value) → Ends limit d (items env done es use) (do
      let vs ← Expr.evalAll apply env es
      use.finish apply (done.reverse ++ vs))
  | [], done, k, w => by
      simp only [Expr.evalAll, pure_bind, List.append_nil]
      cases use with
      | call f s => exact next rfl rfl Nat.one_pos ((h f done.reverse s).part Nat.one_pos)
      | array => exact last rfl rfl ⟨rfl, rfl⟩ Nat.one_pos rfl
  | e :: es, done, k, w => by
      have he : e.size < Expr.sizeAll (e :: es) := by simp [Expr.sizeAll_pos]
      have hes : Expr.sizeAll es < Expr.sizeAll (e :: es) := by simp [Expr.size_pos]
      simp only [Expr.evalAll, bind_assoc, pure_bind]
      refine next rfl rfl he (await ((Expr.ends h env e).part he) nofun (Expr.sizeAll_pos _)
        fun v w' => ?_)
      have hrest : Ends limit d (items env (v :: done) es use) (do
          let vs ← Expr.evalAll apply env es
          use.finish apply (done.reverse ++ v :: vs)) := by
        simpa using Expr.ends_all h env use es (v :: done)
      exact next rfl rfl hes (hrest.part hes)

theorem Expr.ends_pairs (h : Calls limit d apply) (env : Env) :
    (ps : List (Expr × Expr)) → (entries : List (HashKey × Value)) →
    Ends limit d (pairs env ps entries) (do
      let entries ← Expr.evalPairs apply env ps entries
      return .hash entries)
  | [], _, _, _ => last rfl rfl ⟨rfl, rfl⟩ Nat.one_pos rfl
  | (key, value) :: ps, entries, k, w => by
      have hk : key.size < Expr.sizePairs ((key, value) :: ps) := by
        have := value.size_pos
        simp
        omega
      have hv : value.size < Expr.sizePairs ((key, value) :: ps) := by
        have := key.size_pos
        simp
        omega
      have hps : Expr.sizePairs ps < Expr.sizePairs ((key, value) :: ps) := by
        have := key.size_pos
        simp
        omega
      simp only [Expr.evalPairs, bind_assoc]
      refine next rfl rfl hk (await ((Expr.ends h env key).part hk) nofun (Expr.sizePairs_pos _)
        fun a w' => ?_)
      rw [Value.toKey]
      cases hkey : a.hashKey with
      | error cause =>
          have hstep : resume a k d w' (.pairKey env key.span value ps entries) =
              ⟨raise (.fault ⟨cause, key.span⟩), k, d, w'⟩ := by
            simp only [resume, hkey]
          exact last (congrArg some hstep) rfl ⟨rfl, rfl⟩ (Expr.sizePairs_pos _) rfl
      | ok l =>
          have hstep : resume a k d w' (.pairKey env key.span value ps entries) =
              ⟨expr env value, .pairValue env l ps entries :: k, d, w'⟩ := by
            simp only [resume, hkey]
          refine next (congrArg some hstep) rfl hv (await ((Expr.ends h env value).part hv) nofun
            (Expr.sizePairs_pos _) fun v w'' => ?_)
          exact next rfl rfl hps
            ((Expr.ends_pairs h env ps (Entries.put l v entries)).part hps)

theorem Stmt.ends (h : Calls limit d apply) (env : Env) :
    (s : Stmt) → Ends limit d (stmt env s) (s.eval apply env)
  | .bind target value s, k, w => by
      have hv : value.size < (Stmt.bind target value s).size := by simp
      refine next rfl rfl hv (await ((Expr.ends h env value).part hv) nofun (Nat.succ_pos _)
        fun v w' => ?_)
      exact last rfl rfl ⟨rfl, rfl⟩ (Nat.succ_pos _) rfl
  | .ret value s, k, w => by
      have hv : value.size < (Stmt.ret value s).size := by simp
      refine next rfl rfl hv (await ((Expr.ends h env value).part hv) nofun (Nat.succ_pos _)
        fun v w' => ?_)
      exact last rfl rfl ⟨rfl, rfl⟩ (Nat.succ_pos _) rfl
  | .expr value s, k, w => by
      have hv : value.size < (Stmt.expr value s).size := by simp
      exact next rfl rfl hv ((Expr.ends h env value).part hv)
  | .block body, k, w => by
      have hb : Stmt.sizeAll body.stmts < (Stmt.block body).size := by simp
      exact next rfl rfl hb ((Block.ends h env body).part hb)

theorem Stmt.ends_all (h : Calls limit d apply) (env : Env) :
    (ss : List Stmt) → (last : Value) →
    Ends limit d (stmts env ss last) (Stmt.evalAll apply env ss last)
  | [], _, _, _ => last rfl rfl ⟨rfl, rfl⟩ Nat.one_pos rfl
  | s :: ss, _, k, w => by
      have hs : s.size < Stmt.sizeAll (s :: ss) := by simp [Stmt.sizeAll_pos]
      have hss : Stmt.sizeAll ss < Stmt.sizeAll (s :: ss) := by simp [Stmt.size_pos]
      refine next rfl rfl hs (await ((Stmt.ends h env s).part hs) nofun (Stmt.sizeAll_pos _)
        fun v w' => ?_)
      exact next rfl rfl hss ((Stmt.ends_all h env ss v).part hss)

theorem Block.ends (h : Calls limit d apply) (env : Env) :
    (b : Block) → Ends limit d (stmts env b.stmts .null) (b.eval apply env)
  | .mk ss _ => Stmt.ends_all h env ss .null
end

end Trees

/-! ## Calls -/

theorem declareAll_eq (env : Env) : ∀ (ps : List Ident) (vs : List Value) (w : World),
    Eval.declareAll env ps vs w = .ok () (bindAll env ps vs w)
  | p :: ps, v :: vs, w =>
      declareAll_eq env ps vs { w with heap := w.heap.declare env p.name v }
  | [], _, _ => rfl
  | _ :: _, [], _ => rfl

theorem run_eq (apply : Eval.Apply) (c : Closure) (args : List Value) (w : World) :
    c.run apply args w =
      Eval.catchReturn (c.body.eval apply (w.heap.push (some c.env)).1)
        (bindAll (w.heap.push (some c.env)).1 c.params args
          { w with heap := (w.heap.push (some c.env)).2 }) := by
  change (Eval.declareAll (w.heap.push (some c.env)).1 c.params args >>= fun _ => _) _ = _
  simp only [Bind.bind, EStateM.bind, declareAll_eq]
  rfl

section Calls

variable {limit d : Nat} {k : List Frame}

/-- The step to the outcome of a call that opens nothing. -/
theorem apply_last {s t u : State} (h : s.step limit = some t) (hd : t.depth = d)
    (ho : t.control.IsOutcome) (ht : t = u) : Descends limit (limit - d, 0, 1) s u := by
  refine .step h ?_ (ht ▸ .refl t)
  rw [State.rank, hd, ho.1, ho.2]
  exact .of_reach Nat.one_pos

/-- The end of a body is the end of its call. -/
theorem call_returns {s : State} (w : World) (m : Eval Value)
    (h : Descends limit (limit - d, 0, 1) s (.ended (.call :: k) (d + 1) (m w))) :
    Descends limit (limit - d, 0, 1) s (.ended k d (Eval.catchReturn m w)) := by
  simp only [Eval.catchReturn]
  cases hr : m w with
  | ok v w' =>
      rw [hr] at h
      exact h.trans (apply_last rfl rfl ⟨rfl, rfl⟩ rfl)
  | error r w' =>
      rw [hr] at h
      cases r with
      | ret v =>
          exact h.trans (apply_last rfl rfl (isOutcome_ofValue v) (ended_raise k d w' v).symm)
      | fault f => exact h.trans (apply_last rfl rfl ⟨rfl, rfl⟩ rfl)

theorem applyVia_ends {enter : Closure → List Value → Eval Value} (f : Value) (args : List Value)
    (span : Span) (h : ∀ c : Closure, c.params.length = args.length → ∀ k w,
      Descends limit (limit - d, 0, 1) ⟨.apply (.closure c) args span, k, d, w⟩
        (.ended k d (enter c args w))) :
    Ends limit d (.apply f args span) (applyVia enter f args span) := by
  intro k w
  cases f with
  | closure c =>
      dsimp only [applyVia]
      by_cases hc : c.params.length = args.length
      · rw [if_pos hc]
        exact h c hc k w
      · rw [if_neg hc]
        exact apply_last (congrArg some (if_neg hc)) rfl ⟨rfl, rfl⟩ rfl
  | builtin b =>
      exact apply_last rfl rfl (isOutcome_ofExcept _ _) (ended_lift k d _ span _).symm
  | _ => exact apply_last rfl rfl ⟨rfl, rfl⟩ rfl

theorem applyWithin_ends (n : Nat) : ∀ d, limit - d = n → Calls limit d (applyWithin limit n) := by
  induction n with
  | zero =>
      intro d hd f args span
      change Ends limit d _ (applyVia (fun _ _ => Eval.fail (.callDepth limit) span) f args span)
      refine applyVia_ends f args span fun c hc k w => ?_
      have hfull : limit ≤ d := by omega
      exact apply_last (congrArg some ((if_pos hc).trans (if_pos hfull))) rfl ⟨rfl, rfl⟩ rfl
  | succ n ih =>
      intro d hd f args span
      refine applyVia_ends f args span fun c hc k w => ?_
      have hfree : ¬limit ≤ d := by omega
      rw [run_eq]
      refine call_returns _ _ ?_
      have hlow {x : Nat × Nat} : Lower (limit - (d + 1), x) (limit - d, 0, 1) :=
        .of_calls (by omega)
      have hbody := Block.ends (ih (d + 1) (by omega)) (w.heap.push (some c.env)).1 c.body
      refine .step (congrArg some ((if_pos hc).trans (if_neg hfree))) hlow ?_
      exact Path.mono (hbody _ _) fun _ ht => ht.trans hlow

end Calls

/-! ## Whole evaluations -/

/-- What is worked on, evaluated by recursion. -/
def Control.eval (apply : Eval.Apply) : Control → Eval Value
  | expr env e => e.eval apply env
  | items env done todo use => do
    let vs ← Expr.evalAll apply env todo
    use.finish apply (done.reverse ++ vs)
  | pairs env todo entries => do
    let entries ← Expr.evalPairs apply env todo entries
    return .hash entries
  | stmt env s => s.eval apply env
  | stmts env todo last => Stmt.evalAll apply env todo last
  | seek env name span => Value.ofName env name span
  | .apply f args span => apply f args span
  | give v => return v
  | raise s => throw s

theorem control_ends (limit d : Nat) (c : Control) :
    Ends limit d c (c.eval (applyWithin limit (limit - d))) := by
  have hcalls : Calls limit d (applyWithin limit (limit - d)) := applyWithin_ends _ d rfl
  cases c with
  | expr env e => exact Expr.ends hcalls env e
  | items env done todo use => exact Expr.ends_all hcalls env use todo done
  | pairs env todo entries => exact Expr.ends_pairs hcalls env todo entries
  | stmt env s => exact Stmt.ends hcalls env s
  | stmts env todo last => exact Stmt.ends_all hcalls env todo last
  | seek env name span => exact seek_ends name span env
  | apply f args span => exact hcalls f args span
  | give v => exact fun k w => .refl _
  | raise s => exact fun k w => .refl _

/-- The state in which the evaluation of a program begins. -/
def State.start (env : Env) (p : Program) (w : World) : State :=
  ⟨stmts env p .null, [], 0, w⟩

theorem step_ended (limit d : Nat) (r : EStateM.Result Signal World Value) :
    (State.ended [] d r).step limit = none := by
  cases r <;> rfl

theorem outcome_ended (m : Eval Value) (w : World) (d : Nat) :
    (State.ended [] d (m w)).outcome = m.settle w ∧ (State.ended [] d (m w)).depth = d ∧
      (State.ended [] d (m w)).world = (m.settle w).2 := by
  rw [Eval.settle]
  cases m w <;> exact ⟨rfl, rfl, rfl⟩

theorem start_reaches (limit : Nat) (env : Env) (p : Program) (w : World) :
    Reaches limit (.start env p w)
      (.ended [] 0 (Stmt.evalAll (applyWithin limit limit) env p .null w)) :=
  (control_ends limit 0 (stmts env p .null) [] w).reaches

theorem run_eq_outcome (limit : Nat) (env : Env) (p : Program) (w : World) :
    Program.run limit env p w =
      let t := State.ended [] 0 (Stmt.evalAll (applyWithin limit limit) env p .null w)
      (t.outcome.1.unwrapReturn, t.outcome.2) := by
  rw [Program.run, Eval.settle]
  cases Stmt.evalAll (applyWithin limit limit) env p .null w <;> rfl

/-- A program comes to its end after finitely many steps, with the value that it has. Whatever is
worked on along the way, a tree, a call or the search for a name, is itself brought to an end
through states of a lower rank. -/
theorem program_terminates (limit : Nat) (env : Env) (p : Program) (w : World) :
    (∃ t, Reaches limit (.start env p w) t ∧ t.step limit = none ∧
      Program.run limit env p w = (t.outcome.1.unwrapReturn, t.outcome.2)) ∧
    (¬∃ run : Nat → State, run 0 = .start env p w ∧ ∀ i, (run i).step limit = some (run (i + 1))) ∧
    WellFounded Lower ∧
    ∀ s : State, Descends limit (s.rank limit) s (.ended s.frames s.depth
      (s.control.eval (applyWithin limit (limit - s.depth)) s.world)) := by
  have hend := start_reaches limit env p w
  have hhalt := step_ended limit 0 (Stmt.evalAll (applyWithin limit limit) env p .null w)
  refine ⟨⟨_, hend, hhalt, run_eq_outcome limit env p w⟩, hend.not_forever hhalt,
    lower_wellFounded, fun s => ?_⟩
  exact control_ends limit s.depth s.control s.frames s.world

end Machine

end Monkey
