import Monkey.Eval
import Monkey.Proofs.Sequencing
import Monkey.Proofs.Syntax.Tree

/-!
# What evaluations ensure

An invariant of the world is followed through an evaluation, together with what is known of the
value or the signal that it ends with. What a single step on the world keeps, a whole evaluation
keeps: by recursion on the tree, given that the application of functions keeps it.
-/

namespace Monkey

namespace Eval

variable {α β : Type} {I : World → Prop} {P : α → Prop} {E : Signal → Prop} {w : World}

/-- From every world with the invariant `I`, the evaluation ends in one, with a value as `P` says or
with a signal as `E` says. -/
def Ensures (I : World → Prop) (E : Signal → Prop) (m : Eval α) (P : α → Prop) : Prop :=
  ∀ w, I w →
    match m w with
    | .ok a w' => P a ∧ I w'
    | .error s w' => E s ∧ I w'

namespace Ensures

theorem pure {a : α} (h : P a) : Ensures I E (Pure.pure a) P :=
  fun _ hw => ⟨h, hw⟩

theorem throw {s : Signal} (h : E s) : Ensures I E (MonadExcept.throw s : Eval α) P :=
  fun _ hw => ⟨h, hw⟩

theorem bind {x : Eval β} {f : β → Eval α} {Q : β → Prop} (hx : Ensures I E x Q)
    (hf : ∀ b, Q b → Ensures I E (f b) P) : Ensures I E (x >>= f) P := by
  intro w hw
  have hxw := hx w hw
  cases hr : x w with
  | ok b w' =>
      rw [hr] at hxw
      rw [bind_of_ok hr]
      exact hf b hxw.1 w' hxw.2
  | error s w' =>
      rw [hr] at hxw
      rw [bind_of_error hr]
      exact hxw

/-- A step that changes the world and gives back what it found there. -/
theorem modifyGet {f : World → α × World} (h : ∀ w, I w → P (f w).1 ∧ I (f w).2) :
    Ensures I E (MonadStateOf.modifyGet f : Eval α) P :=
  fun w hw => h w hw

/-- What an evaluation makes of a world, from there on keeps an invariant if it is one that every
such change keeps. -/
theorem of_rel {R : World → World → Prop} {m : Eval α} (h : ∀ w, Ensures (R w) E m P)
    (hrefl : ∀ w, R w w) (hI : ∀ w w', I w → R w w' → I w') : Ensures I E m P := by
  intro w hw
  have hm := h w w (hrefl w)
  cases hr : m w with
  | ok a w' =>
      rw [hr] at hm
      exact ⟨hm.1, hI w w' hw hm.2⟩
  | error s w' =>
      rw [hr] at hm
      exact ⟨hm.1, hI w w' hw hm.2⟩

/-- A signal that leaves the function at hand goes on as the value that it takes along. -/
theorem catchReturn {m : Eval Value} {Q : Value → Prop} (h : Ensures I E m Q)
    (hraise : ∀ v, E (.ret v) → Ensures I E (raise v) Q) : Ensures I E (catchReturn m) Q := by
  intro w hw
  have hm := h w hw
  simp only [Eval.catchReturn]
  cases hr : m w with
  | ok v w' =>
      rw [hr] at hm
      exact hm
  | error s w' =>
      rw [hr] at hm
      cases s with
      | ret v => exact hraise v hm.1 w' hm.2
      | fault f => exact hm

theorem settle {m : Eval Value} {Q : Value → Prop} (h : Ensures I E m Q) (hw : I w) :
    I (m.settle w).2 := by
  have hm := h w hw
  rw [Eval.settle]
  split <;> rename_i hr <;> (rw [hr] at hm; exact hm.2)

end Ensures

/-! ## Keeping an invariant -/

/-- The invariant is kept, whatever the end. -/
abbrev Keeps (I : World → Prop) (m : Eval α) : Prop :=
  Ensures I (fun _ => True) m (fun _ => True)

/-! ## Parts of evaluations -/

namespace Ensures

variable {V : Value → Prop} {s : Span}

theorem lift {r : Except FaultCause Value} (hok : ∀ v, r = .ok v → Ensures I E (raise v) V)
    (herror : ∀ cause, r = .error cause → E (.fault ⟨cause, s⟩)) : Ensures I E (lift s r) V := by
  cases r with
  | ok v => exact hok v rfl
  | error cause => exact .throw (herror cause rfl)

theorem ofName {env : Env} {name : String}
    (hlookup : ∀ w v, I w → w.heap.lookup env name = some v → V v)
    (hraise : ∀ v, V v → Ensures I E (raise v) V) (hbuiltin : ∀ b, V (.builtin b))
    (hfault : E (.fault ⟨.unbound name, s⟩)) : Ensures I E (Value.ofName env name s) V := by
  have hfound : Ensures I E (lookup env name) fun o => ∀ v ∈ o, V v :=
    fun w hw => ⟨fun v hv => hlookup w v hw hv, hw⟩
  refine .bind hfound fun o ho => ?_
  cases o with
  | some v => exact hraise v (ho v rfl)
  | none =>
      dsimp only
      split
      · exact .pure (hbuiltin _)
      · exact .throw hfault

theorem toKey {v : Value} (h : ∀ cause, v.hashKey = .error cause → E (.fault ⟨cause, s⟩)) :
    Ensures I E (v.toKey s) fun _ => True := by
  rw [Value.toKey]
  split
  · exact .pure trivial
  · exact .throw (h _ ‹_›)

theorem declareAll {env : Env}
    (h : ∀ name v, V v → Ensures I E (Eval.declare env name v) fun _ => True) :
    ∀ (ps : List Ident) (vs : List Value), (∀ v ∈ vs, V v) →
      Ensures I E (Eval.declareAll env ps vs) fun _ => True
  | p :: ps, v :: vs, hvs =>
      .bind (h p.name v (hvs v (.head _))) fun _ _ =>
        declareAll h ps vs fun v hv => hvs v (.tail _ hv)
  | [], _, _ => .pure trivial
  | _ :: _, [], _ => .pure trivial

end Ensures

end Eval

/-! ## Trees -/

/-- The parts that are evaluated together with the node: the body of a function literal is not. -/
def Tree.evaluated : Tree → List Tree
  | .expr (.fn _ _ _) => []
  | t => t.children

theorem Tree.mem_children_of_evaluated {t u : Tree} (h : t ∈ u.evaluated) : t ∈ u.children := by
  unfold evaluated at h
  split at h
  · cases h
  · exact h

namespace Eval

/-- What is needed to follow evaluations in `env` through a tree whose nodes are as `N` says, where
`V` is what is known of values. -/
structure Rules (I : World → Prop) (E : Signal → Prop) (V : Value → Prop) (N : Tree → Prop)
    (apply : Apply) (env : Env) : Prop where
  part : ∀ t u, N u → t ∈ u.evaluated → N t
  int : ∀ v, V (.int v)
  bool : ∀ v, V (.bool v)
  str : ∀ v, V (.str v)
  null : V .null
  nil : V (.array [])
  cons : ∀ v vs, V v → V (.array vs) → V (.array (v :: vs))
  empty : V (.hash [])
  put : ∀ k v es, V v → V (.hash es) → V (.hash (Entries.put k v es))
  ret : ∀ v, V v → E (.ret v)
  name : ∀ name s, N (.expr (.ident name s)) → Ensures I E (Value.ofName env name s) V
  unary : ∀ op e s v, N (.expr (.unary op e s)) → V v → Ensures I E (lift s (Value.unary op v)) V
  binary : ∀ op l r s a b, N (.expr (.binary op l r s)) → V a → V b →
    Ensures I E (lift s (Value.binary op a b)) V
  index : ∀ object key s a b, N (.expr (.index object key s)) → V a → V b →
    Ensures I E (lift s (a.index b)) V
  close : ∀ ps body s, N (.expr (.fn ps body s)) → Ensures I E (close ps body env) V
  call : ∀ callee args s f vs, N (.expr (.call callee args s)) → V f → V (.array vs) →
    Ensures I E (apply f vs s) V
  key : ∀ ps s q v, N (.expr (.hash ps s)) → q ∈ ps → V v →
    Ensures I E (v.toKey q.1.span) fun _ => True
  declare : ∀ x e s v, N (.stmt (.bind x e s)) → V v →
    Ensures I E (declare env x.name v) fun _ => True

end Eval

open Eval

section Trees

variable {I : World → Prop} {E : Signal → Prop} {V : Value → Prop} {N : Tree → Prop}
  {apply : Apply} {env : Env}

theorem Eval.Rules.pair (h : Rules I E V N apply env) {ps : List (Expr × Expr)} {s : Span}
    {q : Expr × Expr} (hn : N (.expr (.hash ps s))) (hq : q ∈ ps) :
    N (.expr q.1) ∧ N (.expr q.2) := by
  constructor <;> exact h.part _ _ hn (List.mem_flatMap.mpr ⟨q, hq, by simp⟩)

mutual
theorem Expr.eval_ensures (h : Rules I E V N apply env) :
    (e : Expr) → N (.expr e) → Ensures I E (e.eval apply env) V
  | .ident name s, hn => h.name name s hn
  | .int v _, _ => .pure (h.int v)
  | .bool v _, _ => .pure (h.bool v)
  | .str v _, _ => .pure (h.str v)
  | .unary op operand s, hn =>
      .bind (operand.eval_ensures h (h.part _ _ hn (.head _))) fun v => h.unary op operand s v hn
  | .binary op lhs rhs s, hn =>
      .bind (lhs.eval_ensures h (h.part _ _ hn (.head _))) fun a ha =>
        .bind (rhs.eval_ensures h (h.part _ _ hn (.tail _ (.head _)))) fun b =>
          h.binary op lhs rhs s a b hn ha
  | .cond test yes none _, hn => by
      refine .bind (test.eval_ensures h (h.part _ _ hn (.head _))) fun v _ => ?_
      split
      · exact yes.eval_ensures h (h.part _ _ hn (.tail _ (.head _)))
      · exact .pure h.null
  | .cond test yes (some no) _, hn => by
      refine .bind (test.eval_ensures h (h.part _ _ hn (.head _))) fun v _ => ?_
      split
      · exact yes.eval_ensures h (h.part _ _ hn (.tail _ (.head _)))
      · exact no.eval_ensures h (h.part _ _ hn (.tail _ (.tail _ (.head _))))
  | .fn params body s, hn => h.close params body s hn
  | .call callee args s, hn =>
      .bind (callee.eval_ensures h (h.part _ _ hn (.head _))) fun f hf =>
        .bind (Expr.evalAll_ensures h args fun _ he =>
          h.part _ _ hn (.tail _ (List.mem_map_of_mem he))) fun vs =>
            h.call callee args s f vs hn hf
  | .array items _, hn =>
      .bind (Expr.evalAll_ensures h items fun _ he => h.part _ _ hn (List.mem_map_of_mem he))
        fun _ hvs => .pure hvs
  | .index object key s, hn =>
      .bind (object.eval_ensures h (h.part _ _ hn (.head _))) fun a ha =>
        .bind (key.eval_ensures h (h.part _ _ hn (.tail _ (.head _)))) fun b =>
          h.index object key s a b hn ha
  | .hash pairs _, hn =>
      .bind (Expr.evalPairs_ensures h pairs hn (fun _ hq => hq) [] h.empty) fun _ hes => .pure hes

theorem Expr.evalAll_ensures (h : Rules I E V N apply env) :
    (es : List Expr) → (∀ e ∈ es, N (.expr e)) →
    Ensures I E (Expr.evalAll apply env es) fun vs => V (.array vs)
  | [], _ => .pure h.nil
  | e :: es, hn =>
      .bind (e.eval_ensures h (hn e (.head _))) fun v hv =>
        .bind (Expr.evalAll_ensures h es fun e he => hn e (.tail _ he)) fun vs hvs =>
          .pure (h.cons v vs hv hvs)

theorem Expr.evalPairs_ensures (h : Rules I E V N apply env) {all : List (Expr × Expr)}
    {s : Span} : (ps : List (Expr × Expr)) → N (.expr (.hash all s)) →
    (∀ q ∈ ps, q ∈ all) → (es : List (HashKey × Value)) → V (.hash es) →
    Ensures I E (Expr.evalPairs apply env ps es) fun es => V (.hash es)
  | [], _, _, _, hes => .pure hes
  | (key, value) :: ps, hn, hall, es, hes =>
      have hq := hall (key, value) (.head _)
      .bind (key.eval_ensures h (h.pair hn hq).1) fun a ha =>
        .bind (h.key all s (key, value) a hn hq ha) fun k _ =>
          .bind (value.eval_ensures h (h.pair hn hq).2) fun v hv =>
            Expr.evalPairs_ensures h ps hn (fun q hq => hall q (.tail _ hq)) _ (h.put k v es hv hes)

theorem Stmt.eval_ensures (h : Rules I E V N apply env) :
    (s : Stmt) → N (.stmt s) → Ensures I E (s.eval apply env) V
  | .bind target value s, hn =>
      .bind (value.eval_ensures h (h.part _ _ hn (.tail _ (.head _)))) fun v hv =>
        .bind (h.declare target value s v hn hv) fun _ _ => .pure h.null
  | .ret value _, hn =>
      .bind (value.eval_ensures h (h.part _ _ hn (.head _))) fun v hv => .throw (h.ret v hv)
  | .expr value _, hn => value.eval_ensures h (h.part _ _ hn (.head _))
  | .block body, hn => body.eval_ensures h (h.part _ _ hn (.head _))

theorem Stmt.evalAll_ensures (h : Rules I E V N apply env) :
    (ss : List Stmt) → (∀ s ∈ ss, N (.stmt s)) → (last : Value) → V last →
    Ensures I E (Stmt.evalAll apply env ss last) V
  | [], _, _, hlast => .pure hlast
  | s :: ss, hn, _, _ =>
      .bind (s.eval_ensures h (hn s (.head _))) fun v =>
        Stmt.evalAll_ensures h ss (fun s hs => hn s (.tail _ hs)) v

theorem Block.eval_ensures (h : Rules I E V N apply env) :
    (b : Block) → N (.block b) → Ensures I E (b.eval apply env) V
  | .mk stmts _, hn =>
      Stmt.evalAll_ensures h stmts (fun _ hs => h.part _ _ hn (List.mem_map_of_mem hs)) .null h.null
end

end Trees

/-! ## Calls -/

/-- A fault that only a call raises. -/
inductive FaultCause.OfCall : FaultCause → Prop
  | notCallable (type : String) : OfCall (.notCallable type)
  | arity (expected actual : Nat) : OfCall (.arity expected actual)
  | builtinArity (expected actual : Nat) : OfCall (.builtinArity expected actual)
  | badArgument (builtin type : String) : OfCall (.badArgument builtin type)
  | callDepth (limit : Nat) : OfCall (.callDepth limit)

namespace Builtin

variable {cause : FaultCause} {args : List Value}

theorem ofCall_of_one {f : Value → Except FaultCause Value} (h : one f args = .error cause)
    (hf : ∀ v, f v = .error cause → cause.OfCall) : cause.OfCall := by
  unfold one at h
  split at h
  · exact hf _ h
  · cases h
    exact .builtinArity 1 _

theorem ofCall_of_call {b : Builtin} (h : b.call args = .error cause) : cause.OfCall := by
  cases b with
  | len | first | last =>
      refine ofCall_of_one h fun v hv => ?_
      cases v <;> cases hv <;> exact .badArgument _ _
  | rest =>
      refine ofCall_of_one h fun v hv => ?_
      cases v with
      | array items => cases items <;> cases hv
      | _ =>
          cases hv
          exact .badArgument _ _
  | push =>
      rcases args with _ | ⟨a, _ | ⟨v, _ | _⟩⟩
      · cases h
        exact .builtinArity _ _
      · cases a <;> cases h <;> exact .builtinArity _ _
      · cases a <;> cases h <;> exact .badArgument _ _
      · cases a <;> cases h <;> exact .builtinArity _ _
  | puts => cases h

end Builtin

theorem Closure.run_ensures {I : World → Prop} {E : Signal → Prop} {P V : Value → Prop}
    {R : Env → Prop} {apply : Apply} {c : Closure} {args : List Value} (hargs : ∀ v ∈ args, P v)
    (henter : Ensures I E (enter c.env) R)
    (hdeclare : ∀ env, R env → ∀ name v, P v → Ensures I E (declare env name v) fun _ => True)
    (hbody : ∀ env, R env → Ensures I E (c.body.eval apply env) V)
    (hraise : ∀ v, E (.ret v) → Ensures I E (raise v) V) : Ensures I E (c.run apply args) V :=
  .bind henter fun env henv =>
    .bind (.declareAll (hdeclare env henv) c.params args hargs) fun _ _ =>
      (hbody env henv).catchReturn hraise

theorem applyVia_ensures {I : World → Prop} {E : Signal → Prop} {V : Value → Prop}
    {enter : Closure → List Value → Eval Value} {f : Value} {args : List Value} {s : Span}
    (henter : ∀ c, f = .closure c → Ensures I E (enter c args) V)
    (hwrite : ∀ w text, I w → I { w with output := w.output ++ text })
    (hok : ∀ b v, Builtin.call b args = .ok v → Ensures I E (raise v) V)
    (hfault : ∀ cause, cause.OfCall → E (.fault ⟨cause, s⟩)) :
    Ensures I E (applyVia enter f args s) V := by
  cases f with
  | closure c =>
      dsimp only [applyVia]
      split
      · exact henter c rfl
      · exact .throw (hfault _ (.arity _ _))
  | builtin b =>
      have hwritten : Ensures I E (write (b.written args)) fun _ => True :=
        .modifyGet fun w hw => ⟨trivial, hwrite w _ hw⟩
      exact .bind hwritten fun _ _ =>
        .lift (hok b) fun cause h => hfault cause (Builtin.ofCall_of_call h)
  | _ => exact .throw (hfault _ (.notCallable _))

/-! ## Whole evaluations -/

/-- A tree that can be evaluated. -/
inductive Node where
  | expr (e : Expr)
  | stmt (s : Stmt)
  | program (p : Program)

/-- The end of an evaluation, where `limit` calls may be nested and `n` more may be entered. -/
def Node.run (limit n : Nat) (env : Env) (w : World) : Node → Value × World
  | expr e => (e.eval (applyWithin limit n) env).settle w
  | stmt s => (s.eval (applyWithin limit n) env).settle w
  | program p =>
    let (v, w') := (Stmt.evalAll (applyWithin limit n) env p .null).settle w
    (v.unwrapReturn, w')

theorem Expr.run_eq_node_run (limit : Nat) (env : Env) (e : Expr) (w : World) :
    e.run limit env w = (Node.expr e).run limit limit env w := rfl

theorem Stmt.run_eq_node_run (limit : Nat) (env : Env) (s : Stmt) (w : World) :
    s.run limit env w = (Node.stmt s).run limit limit env w := rfl

theorem Program.run_eq_node_run (limit : Nat) (env : Env) (p : Program) (w : World) :
    Program.run limit env p w = (Node.program p).run limit limit env w := rfl

end Monkey
