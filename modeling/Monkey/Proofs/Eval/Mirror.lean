import Monkey.Proofs.Eval.Renaming
import Monkey.Proofs.Sequencing

/-!
# Evaluations that mirror each other

Two evaluations of one tree in worlds that differ by a renaming only take the same steps: they end
in the same way, with values and worlds that differ by the renaming only. The steps that touch the
world are given as conditions on the relation between the worlds; all else follows by recursion on
the tree and on the number of calls.
-/

namespace Monkey

namespace Eval

variable {α β : Type}

/-- From worlds that are related, `m'` ends as `m` does, in worlds that are related; its result is
that of `m` under `f`, or its signal is that of `m` renamed. -/
def Mirrors (r : Renaming) (W : World → World → Prop) (f : α → β) (m : Eval α) (m' : Eval β) :
    Prop :=
  ∀ w w', W w w' →
    match m w with
    | .ok a v => ∃ v', m' w' = .ok (f a) v' ∧ W v v'
    | .error s v => ∃ v', m' w' = .error (s.rename r) v' ∧ W v v'

/-- What makes two worlds mirror each other: each step on the one has its counterpart on the other.
-/
structure Mirrored (r : Renaming) (W : World → World → Prop) : Prop where
  lookup : ∀ w w' env name, W w w' →
    w'.heap.lookup (r.env env) name = (w.heap.lookup env name).map (Value.rename r)
  declare : ∀ w w' env name v, W w w' →
    W { w with heap := w.heap.declare env name v }
      { w' with heap := w'.heap.declare (r.env env) name (v.rename r) }
  enter : ∀ w w' env, W w w' →
    (w'.heap.push (some (r.env env))).1 = r.env (w.heap.push (some env)).1 ∧
      W { w with heap := (w.heap.push (some env)).2 }
        { w' with heap := (w'.heap.push (some (r.env env))).2 }
  write : ∀ w w' text, W w w' →
    W { w with output := w.output ++ text } { w' with output := w'.output ++ text }
  close : ∀ w w', W w w' → w'.functions = r.function w.functions ∧
    W { w with functions := w.functions + 1 } { w' with functions := w'.functions + 1 }

theorem evalAll_singleton (apply : Apply) (env : Env) (e : Expr) (s : Span) (last : Value)
    (w : World) : Stmt.evalAll apply env [.expr e s] last w = e.eval apply env w := by
  rw [Stmt.evalAll, Stmt.eval]
  simp only [Stmt.evalAll, bind_pure]

variable {r : Renaming} {W : World → World → Prop} {f : α → α} {w w' : World}

namespace Mirrors

/-- Both end with a value, or both with a signal. -/
theorem ends {m m' : Eval α} (h : Mirrors r W f m m') (hw : W w w') :
    (∃ a v v', m w = .ok a v ∧ m' w' = .ok (f a) v' ∧ W v v') ∨
      ∃ s v v', m w = .error s v ∧ m' w' = .error (s.rename r) v' ∧ W v v' := by
  have hm := h w w' hw
  cases hr : m w with
  | ok a v =>
      rw [hr] at hm
      obtain ⟨v', hr', hv⟩ := hm
      exact .inl ⟨a, v, v', rfl, hr', hv⟩
  | error s v =>
      rw [hr] at hm
      obtain ⟨v', hr', hv⟩ := hm
      exact .inr ⟨s, v, v', rfl, hr', hv⟩

theorem pure {a b : α} (h : b = f a) : Mirrors r W f (Pure.pure a) (Pure.pure b) :=
  fun _ w' hw => ⟨w', h ▸ rfl, hw⟩

theorem throw (s : Signal) :
    Mirrors r W f (MonadExcept.throw s) (MonadExcept.throw (s.rename r)) :=
  fun _ w' hw => ⟨w', rfl, hw⟩

theorem bind {x x' : Eval β} {g : β → β} {k k' : β → Eval α} (hx : Mirrors r W g x x')
    (hk : ∀ b, Mirrors r W f (k b) (k' (g b))) : Mirrors r W f (x >>= k) (x' >>= k') := by
  intro w w' hw
  rcases hx.ends hw with ⟨b, v, v', hr, hr', hv⟩ | ⟨s, v, v', hr, hr', hv⟩
  · rw [bind_of_ok hr, bind_of_ok hr']
    exact hk b v v' hv
  · rw [bind_of_error hr, bind_of_error hr']
    exact ⟨v', rfl, hv⟩

theorem ite {c : Prop} [Decidable c] {x y x' y' : Eval α} (hx : Mirrors r W f x x')
    (hy : Mirrors r W f y y') : Mirrors r W f (if c then x else y) (if c then x' else y') := by
  split
  · exact hx
  · exact hy

theorem settle {m m' : Eval Value} (h : Mirrors r W (Value.rename r) m m') (hw : W w w') :
    (m'.settle w').1 = (m.settle w).1.rename r ∧ W (m.settle w).2 (m'.settle w').2 := by
  rw [Eval.settle, Eval.settle]
  rcases h.ends hw with ⟨v, u, u', hr, hr', hu⟩ | ⟨s, u, u', hr, hr', hu⟩
  · rw [hr, hr']
    exact ⟨rfl, hu⟩
  · rw [hr, hr']
    exact ⟨by simp, hu⟩

end Mirrors

/-! ## Single steps -/

theorem mirrors_raise (v : Value) :
    Mirrors r W (Value.rename r) (raise v) (raise (v.rename r)) := by
  cases v with
  | signal s => exact .throw s
  | _ => exact .pure rfl

theorem mirrors_fail (cause : FaultCause) (span : Span) :
    Mirrors r W f (fail cause span) (fail cause (r.span span)) :=
  .throw (.fault ⟨cause, span⟩)

theorem mirrors_lift (span : Span) (x : Except FaultCause Value) :
    Mirrors r W (Value.rename r) (lift span x) (lift (r.span span) (x.map (Value.rename r))) := by
  cases x with
  | ok v => exact mirrors_raise v
  | error cause => exact mirrors_fail cause span

theorem mirrors_toKey (v : Value) (span : Span) :
    Mirrors r W id (v.toKey span) ((v.rename r).toKey (r.span span)) := by
  rw [Value.toKey, Value.toKey, Value.hashKey_rename]
  cases v.hashKey with
  | ok k => exact .pure rfl
  | error cause => exact mirrors_fail cause span

theorem mirrors_catchReturn {m m' : Eval Value} (h : Mirrors r W (Value.rename r) m m') :
    Mirrors r W (Value.rename r) (catchReturn m) (catchReturn m') := by
  intro w w' hw
  simp only [catchReturn]
  rcases h.ends hw with ⟨v, u, u', hr, hr', hu⟩ | ⟨s, u, u', hr, hr', hu⟩
  · rw [hr, hr']
    exact ⟨u', rfl, hu⟩
  · rw [hr, hr']
    cases s with
    | ret v => simpa using mirrors_raise v u u' hu
    | fault f => exact ⟨u', by simp, hu⟩

section World

variable (h : Mirrored r W)

include h

theorem mirrors_lookup (env : Env) (name : String) :
    Mirrors r W (Option.map (Value.rename r)) (lookup env name) (lookup (r.env env) name) :=
  fun w w' hw => ⟨w', congrArg (EStateM.Result.ok · w') (h.lookup w w' env name hw), hw⟩

theorem mirrors_declare (env : Env) (name : String) (v : Value) :
    Mirrors r W id (declare env name v) (declare (r.env env) name (v.rename r)) :=
  fun w w' hw => ⟨_, rfl, h.declare w w' env name v hw⟩

theorem mirrors_enter (env : Env) : Mirrors r W r.env (enter env) (enter (r.env env)) := by
  intro w w' hw
  obtain ⟨henv, hpush⟩ := h.enter w w' env hw
  exact ⟨_, congrArg (EStateM.Result.ok · _) henv, hpush⟩

theorem mirrors_write (text : String) : Mirrors r W id (write text) (write text) :=
  fun w w' hw => ⟨_, rfl, h.write w w' text hw⟩

theorem mirrors_close (params : List Ident) (body : Block) (env : Env) :
    Mirrors r W (Value.rename r) (close params body env)
      (close (params.map (Ident.respan r.span)) (body.respan r.span) (r.env env)) := by
  intro w w' hw
  obtain ⟨hid, hclose⟩ := h.close w w' hw
  refine ⟨_, congrArg (EStateM.Result.ok · _) ?_, hclose⟩
  rw [hid]
  rfl

theorem mirrors_ofName (env : Env) (name : String) (span : Span) :
    Mirrors r W (Value.rename r) (Value.ofName env name span)
      (Value.ofName (r.env env) name (r.span span)) := by
  refine .bind (mirrors_lookup h env name) fun found => ?_
  cases found with
  | some v => exact mirrors_raise v
  | none =>
      dsimp only [Option.map_none]
      cases Builtin.ofName? name with
      | some b => exact .pure rfl
      | none => exact mirrors_fail _ span

theorem mirrors_declareAll (env : Env) : ∀ (ps : List Ident) (vs : List Value),
    Mirrors r W id (declareAll env ps vs)
      (declareAll (r.env env) (ps.map (Ident.respan r.span)) (vs.map (Value.rename r)))
  | p :: ps, v :: vs =>
      .bind (mirrors_declare h env p.name v) fun _ => mirrors_declareAll env ps vs
  | [], _ => .pure rfl
  | _ :: _, [] => .pure rfl

end World

end Eval

open Eval

/-! ## Trees -/

section Trees

variable {r : Renaming} {W : World → World → Prop} {apply apply' : Apply}

/-- The two ways to apply functions mirror each other. -/
def Eval.Applies (r : Renaming) (W : World → World → Prop) (apply apply' : Apply) : Prop :=
  ∀ f vs s, Mirrors r W (Value.rename r) (apply f vs s)
    (apply' (f.rename r) (vs.map (Value.rename r)) (r.span s))

mutual
theorem Expr.eval_mirrors (h : Mirrored r W) (happly : Applies r W apply apply') (env : Env) :
    (e : Expr) →
    Mirrors r W (Value.rename r) (e.eval apply env) ((e.respan r.span).eval apply' (r.env env))
  | .ident name s => by
      simp only [Expr.respan, Expr.eval]
      exact mirrors_ofName h env name s
  | .int _ _ | .bool _ _ | .str _ _ => by
      simp only [Expr.respan, Expr.eval]
      exact .pure rfl
  | .unary op operand s => by
      simp only [Expr.respan, Expr.eval]
      refine .bind (operand.eval_mirrors h happly env) fun v => ?_
      rw [Value.unary_rename]
      exact mirrors_lift s _
  | .binary op lhs rhs s => by
      simp only [Expr.respan, Expr.eval]
      refine .bind (lhs.eval_mirrors h happly env) fun a =>
        .bind (rhs.eval_mirrors h happly env) fun b => ?_
      rw [Value.binary_rename]
      exact mirrors_lift s _
  | .cond test yes none _ => by
      simp only [Expr.respan, Expr.eval]
      refine .bind (test.eval_mirrors h happly env) fun v => ?_
      rw [Value.isTruthy_rename]
      exact .ite (yes.eval_mirrors h happly env) (.pure rfl)
  | .cond test yes (some no) _ => by
      simp only [Expr.respan, Expr.eval]
      refine .bind (test.eval_mirrors h happly env) fun v => ?_
      rw [Value.isTruthy_rename]
      exact .ite (yes.eval_mirrors h happly env) (no.eval_mirrors h happly env)
  | .fn params body _ => by
      simp only [Expr.respan, Expr.eval]
      exact mirrors_close h params body env
  | .call callee args s => by
      simp only [Expr.respan, Expr.eval]
      exact .bind (callee.eval_mirrors h happly env) fun f =>
        .bind (Expr.evalAll_mirrors h happly env args) fun vs => happly f vs s
  | .array items _ => by
      simp only [Expr.respan, Expr.eval]
      exact .bind (Expr.evalAll_mirrors h happly env items) fun vs => .pure (by simp)
  | .index object key s => by
      simp only [Expr.respan, Expr.eval]
      refine .bind (object.eval_mirrors h happly env) fun a =>
        .bind (key.eval_mirrors h happly env) fun b => ?_
      rw [Value.index_rename]
      exact mirrors_lift s _
  | .hash pairs _ => by
      simp only [Expr.respan, Expr.eval]
      exact .bind (Expr.evalPairs_mirrors h happly env pairs []) fun _ => .pure rfl

theorem Expr.evalAll_mirrors (h : Mirrored r W) (happly : Applies r W apply apply') (env : Env) :
    (es : List Expr) →
    Mirrors r W (List.map (Value.rename r)) (Expr.evalAll apply env es)
      (Expr.evalAll apply' (r.env env) (Expr.respanAll r.span es))
  | [] => .pure rfl
  | e :: es => by
      simp only [Expr.respanAll, Expr.evalAll]
      exact .bind (e.eval_mirrors h happly env) fun v =>
        .bind (Expr.evalAll_mirrors h happly env es) fun vs => .pure rfl

theorem Expr.evalPairs_mirrors (h : Mirrored r W) (happly : Applies r W apply apply') (env : Env) :
    (ps : List (Expr × Expr)) → (entries : List (HashKey × Value)) →
    Mirrors r W (Value.renameEntries r) (Expr.evalPairs apply env ps entries)
      (Expr.evalPairs apply' (r.env env) (Expr.respanPairs r.span ps)
        (Value.renameEntries r entries))
  | [], _ => .pure rfl
  | (key, value) :: ps, entries => by
      simp only [Expr.respanPairs, Expr.evalPairs]
      refine .bind (key.eval_mirrors h happly env) fun a => ?_
      rw [Expr.span_respan]
      refine .bind (mirrors_toKey a key.span) fun k =>
        .bind (value.eval_mirrors h happly env) fun v => ?_
      -- the entries so far are kept as an accumulator, which is renamed as well
      have hput := Entries.put_rename r k v entries
      simp only [← Value.renameEntries_eq_map] at hput
      rw [id, hput]
      exact Expr.evalPairs_mirrors h happly env ps (Entries.put k v entries)

theorem Stmt.eval_mirrors (h : Mirrored r W) (happly : Applies r W apply apply') (env : Env) :
    (s : Stmt) →
    Mirrors r W (Value.rename r) (s.eval apply env) ((s.respan r.span).eval apply' (r.env env))
  | .bind target value _ => by
      simp only [Stmt.respan, Stmt.eval]
      exact .bind (value.eval_mirrors h happly env) fun v =>
        .bind (mirrors_declare h env target.name v) fun _ => .pure rfl
  | .ret value _ => by
      simp only [Stmt.respan, Stmt.eval]
      refine .bind (value.eval_mirrors h happly env) fun v => ?_
      simpa using Mirrors.throw (.ret v)
  | .expr value _ => by
      simp only [Stmt.respan, Stmt.eval]
      exact value.eval_mirrors h happly env
  | .block body => by
      simp only [Stmt.respan, Stmt.eval]
      exact body.eval_mirrors h happly env

theorem Stmt.evalAll_mirrors (h : Mirrored r W) (happly : Applies r W apply apply') (env : Env) :
    (ss : List Stmt) → (last : Value) →
    Mirrors r W (Value.rename r) (Stmt.evalAll apply env ss last)
      (Stmt.evalAll apply' (r.env env) (Stmt.respanAll r.span ss) (last.rename r))
  | [], _ => .pure rfl
  | s :: ss, _ => by
      simp only [Stmt.respanAll, Stmt.evalAll]
      exact .bind (s.eval_mirrors h happly env) fun v => Stmt.evalAll_mirrors h happly env ss v

theorem Block.eval_mirrors (h : Mirrored r W) (happly : Applies r W apply apply') (env : Env) :
    (b : Block) →
    Mirrors r W (Value.rename r) (b.eval apply env) ((b.respan r.span).eval apply' (r.env env))
  | .mk stmts _ => by
      simp only [Block.respan, Block.eval]
      exact Stmt.evalAll_mirrors h happly env stmts .null
end

end Trees

/-! ## Calls -/

section Calls

variable {r : Renaming} {W : World → World → Prop} (h : Mirrored r W)

include h

theorem Closure.run_mirrors {apply apply' : Apply} (happly : Applies r W apply apply')
    (c : Closure) (args : List Value) :
    Mirrors r W (Value.rename r) (c.run apply args)
      ((c.rename r).run apply' (args.map (Value.rename r))) :=
  .bind (mirrors_enter h c.env) fun env =>
    .bind (mirrors_declareAll h env c.params args) fun _ =>
      mirrors_catchReturn (c.body.eval_mirrors h happly env)

theorem applyVia_mirrors {enter enter' : Closure → List Value → Eval Value}
    (henter : ∀ c args, Mirrors r W (Value.rename r) (enter c args)
      (enter' (c.rename r) (args.map (Value.rename r)))) (f : Value) (args : List Value)
    (span : Span) :
    Mirrors r W (Value.rename r) (applyVia enter f args span)
      (applyVia enter' (f.rename r) (args.map (Value.rename r)) (r.span span)) := by
  have hname := f.typeName_rename r
  cases f with
  | closure c =>
      simp only [Value.rename, applyVia, Closure.rename, List.length_map]
      exact .ite (henter c args) (mirrors_fail _ span)
  | builtin b =>
      simp only [Value.rename, applyVia]
      rw [Builtin.written_rename, Builtin.call_rename]
      exact .bind (mirrors_write h _) fun _ => mirrors_lift span _
  | _ =>
      simp only [Value.rename] at hname
      simp only [Value.rename, applyVia, hname]
      exact mirrors_fail _ span

theorem applyWithin_mirrors (limit n : Nat) :
    Applies r W (applyWithin limit n) (applyWithin limit n) := by
  induction n with
  | zero =>
      intro f args span
      rw [applyWithin]
      exact applyVia_mirrors h (fun _ _ => mirrors_fail _ span) f args span
  | succ n ih => exact applyVia_mirrors h (Closure.run_mirrors h ih)

end Calls

end Monkey
