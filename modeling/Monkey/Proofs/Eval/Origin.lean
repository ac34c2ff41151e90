import Monkey.Proofs.Eval.Ensures
import Monkey.Proofs.Value.Contents

/-!
# Where faults come from

A fault that ends a program is blamed on a node of this program, and it is one that a node of that
kind can raise. On its way it may pass any number of calls, but functions are nodes of the program
as well: wherever a value is kept, it holds no function that the program does not make.
-/

namespace Monkey

/-! ## Nodes to blame -/

namespace Program

/-- The span is that of a node of the program which can raise a fault for this cause. -/
inductive Blames (p : Program) : FaultCause → Span → Prop
  | name {x : String} {s : Span} : HasNode p (.expr (.ident x s)) → Blames p (.unbound x) s
  | mismatch {op : BinaryOp} {lhs rhs : Expr} {s : Span} (a b : String) :
      HasNode p (.expr (.binary op lhs rhs s)) → Blames p (.typeMismatch a op b) s
  | binary {op : BinaryOp} {lhs rhs : Expr} {s : Span} (a b : String) :
      HasNode p (.expr (.binary op lhs rhs s)) → Blames p (.unknownBinary a op b) s
  | division {lhs rhs : Expr} {s : Span} :
      HasNode p (.expr (.binary .divide lhs rhs s)) → Blames p .divisionByZero s
  | negation {e : Expr} {s : Span} (a : String) :
      HasNode p (.expr (.unary .negate e s)) → Blames p (.unknownUnary .negate a) s
  | call {callee : Expr} {args : List Expr} {s : Span} {cause : FaultCause} :
      HasNode p (.expr (.call callee args s)) → cause.OfCall → Blames p cause s
  | index {object key : Expr} {s : Span} (type : String) :
      HasNode p (.expr (.index object key s)) → Blames p (.notIndexable type) s
  | indexKey {object key : Expr} {s : Span} (type : String) :
      HasNode p (.expr (.index object key s)) → Blames p (.unhashable type) s
  | hashKey {pairs : List (Expr × Expr)} {s : Span} {pair : Expr × Expr} (type : String) :
      HasNode p (.expr (.hash pairs s)) → pair ∈ pairs → Blames p (.unhashable type) pair.1.span

variable {p : Program} {cause : FaultCause} {s : Span}

theorem HasNode.stmt {s : Stmt} (h : s ∈ p) : HasNode p (.stmt s) :=
  ⟨s, h, .refl⟩

theorem HasNode.evaluated {t u : Tree} (h : HasNode p u) (ht : t ∈ u.evaluated) :
    HasNode p t :=
  h.child (Tree.mem_children_of_evaluated ht)

theorem HasNode.body {ps : List Ident} {b : Block} (h : HasNode p (.expr (.fn ps b s))) :
    HasNode p (.block b) :=
  h.child (List.mem_append_right _ (.head _))

theorem HasNode.pair {ps : List (Expr × Expr)} {q : Expr × Expr}
    (h : HasNode p (.expr (.hash ps s))) (hq : q ∈ ps) :
    HasNode p (.expr q.1) ∧ HasNode p (.expr q.2) := by
  constructor <;> exact h.child (List.mem_flatMap.mpr ⟨q, hq, by simp⟩)

theorem Blames.node (h : Blames p cause s) : ∃ t, HasNode p t ∧ t.span = s := by
  cases h with
  | hashKey _ hnode hpair => exact ⟨_, (hnode.pair hpair).1, rfl⟩
  | name hnode | mismatch _ _ hnode | binary _ _ hnode | division hnode | negation _ hnode
  | call hnode _ | index _ hnode | indexKey _ hnode => exact ⟨_, hnode, rfl⟩

end Program

/-! ## What operations complain about -/

section Errors

variable {cause : FaultCause}

theorem Value.unary_error {op : UnaryOp} {v : Value} (h : unary op v = .error cause) :
    op = .negate ∧ ∃ a, cause = .unknownUnary .negate a := by
  cases op with
  | not => cases h
  | negate => cases v <;> cases h <;> exact ⟨rfl, _, rfl⟩

theorem Value.binary_error {op : BinaryOp} {a b : Value} (h : binary op a b = .error cause) :
    cause = mismatch op a b ∨ op = .divide ∧ cause = .divisionByZero := by
  unfold binary at h
  split at h
  all_goals try split at h
  all_goals cases h
  case h_5.isTrue => exact .inr ⟨rfl, rfl⟩
  all_goals exact .inl rfl

theorem Value.hashKey_error {v : Value} (h : v.hashKey = .error cause) :
    ∃ type, cause = .unhashable type := by
  cases v <;> cases h <;> exact ⟨_, rfl⟩

theorem Value.index_error {a b : Value} (h : a.index b = .error cause) :
    (∃ type, cause = .notIndexable type) ∨ ∃ type, cause = .unhashable type := by
  unfold index at h
  split at h
  · cases h
  · cases hk : b.hashKey with
    | error c =>
        rw [hk] at h
        cases h
        exact .inr (hashKey_error hk)
    | ok k =>
        rw [hk] at h
        cases h
  · cases h
    exact .inl ⟨_, rfl⟩

end Errors

/-! ## Functions of a program -/

section

variable (p : Program)

/-- The body of the function is a node of the program. -/
def Closure.MadeBy (c : Closure) : Prop :=
  Program.HasNode p (.block c.body)

/-- A value that holds no signal, and no function but those that the program makes. -/
abbrev Value.MadeBy (v : Value) : Prop :=
  v.Each (Closure.MadeBy p) False

def Signal.MadeBy : Signal → Prop
  | .ret v => v.MadeBy p
  | .fault f => p.Blames f.cause f.span

def World.MadeBy (w : World) : Prop :=
  w.heap.All (Value.MadeBy p)

/-- In worlds that the program makes the evaluation keeps to what the program makes, and blames its
nodes only. -/
abbrev Eval.Traces {α : Type} (m : Eval α) (P : α → Prop) : Prop :=
  Eval.Ensures (World.MadeBy p) (Signal.MadeBy p) m P

/-- Calls that a node of the program makes, with what the program makes. -/
def Eval.TracesCalls (apply : Apply) : Prop :=
  ∀ callee args s, Program.HasNode p (.expr (.call callee args s)) → ∀ f vs, f.MadeBy p →
    (Value.array vs).MadeBy p → Eval.Traces p (apply f vs s) (Value.MadeBy p)

end

variable {p : Program}

/-! ## Evaluation -/

namespace Eval

theorem traces_raise {v : Value} (h : v.MadeBy p) : Traces p (raise v) (Value.MadeBy p) := by
  cases v with
  | signal s => exact h.1.elim
  | _ => exact .pure h

theorem traces_declare (env : Env) (name : String) {v : Value} (h : v.MadeBy p) :
    Traces p (Eval.declare env name v) fun _ => True :=
  .modifyGet fun _ hw => ⟨trivial, hw.declare env name h⟩

section Nodes

variable {s : Span}

theorem traces_unary {op : UnaryOp} {operand : Expr}
    (h : Program.HasNode p (.expr (.unary op operand s))) (v : Value) :
    Traces p (lift s (Value.unary op v)) (Value.MadeBy p) := by
  refine .lift (fun r hr => traces_raise (Value.each_unary hr))
    fun cause hr => ?_
  obtain ⟨rfl, a, rfl⟩ := Value.unary_error hr
  exact Program.Blames.negation a h

theorem traces_binary {op : BinaryOp} {lhs rhs : Expr}
    (h : Program.HasNode p (.expr (.binary op lhs rhs s))) (a b : Value) :
    Traces p (lift s (Value.binary op a b)) (Value.MadeBy p) := by
  refine .lift (fun r hr => traces_raise (Value.each_binary hr))
    fun cause hr => ?_
  rcases Value.binary_error hr with rfl | ⟨rfl, rfl⟩
  · rw [Value.mismatch]
    split
    · exact Program.Blames.binary _ _ h
    · exact Program.Blames.mismatch _ _ h
  · exact Program.Blames.division h

theorem traces_index {object key : Expr}
    (h : Program.HasNode p (.expr (.index object key s))) {a : Value} (ha : a.MadeBy p)
    (b : Value) : Traces p (lift s (a.index b)) (Value.MadeBy p) := by
  refine .lift (fun r hr => traces_raise (Value.each_index ha hr)) fun cause hr => ?_
  rcases Value.index_error hr with ⟨type, rfl⟩ | ⟨type, rfl⟩
  · exact Program.Blames.index type h
  · exact Program.Blames.indexKey type h

theorem traces_toKey {pairs : List (Expr × Expr)} {pair : Expr × Expr}
    (h : Program.HasNode p (.expr (.hash pairs s))) (hpair : pair ∈ pairs) (v : Value) :
    Traces p (v.toKey pair.1.span) fun _ => True := by
  refine .toKey fun cause hr => ?_
  obtain ⟨type, rfl⟩ := Value.hashKey_error hr
  exact Program.Blames.hashKey type h hpair

end Nodes

theorem traces_rules {apply : Apply} (h : TracesCalls p apply) (env : Env) :
    Rules (World.MadeBy p) (Signal.MadeBy p) (Value.MadeBy p) (Program.HasNode p) apply env where
  part _ _ hu ht := hu.evaluated ht
  int _ := trivial
  bool _ := trivial
  str _ := trivial
  null := trivial
  nil := trivial
  cons _ _ hv hvs := ⟨hv, hvs⟩
  empty := trivial
  put k _ _ hv hes := Value.each_put k hv hes
  ret _ hv := hv
  name _ _ hn := .ofName (fun _ _ hw hv => hw.lookup hv) (fun _ => traces_raise)
    (fun _ => trivial) (Program.Blames.name hn)
  unary _ _ _ v hn _ := traces_unary hn v
  binary _ _ _ _ a b hn _ _ := traces_binary hn a b
  index _ _ _ _ b hn ha _ := traces_index hn ha b
  close _ _ _ hn := .modifyGet fun _ hw => ⟨hn.body, hw⟩
  call callee args s f vs hn hf hvs := h callee args s hn f vs hf hvs
  key _ _ _ v hn hq _ := traces_toKey hn hq v
  declare x _ _ _ _ hv := traces_declare env x.name hv

end Eval

open Eval
open Program (HasNode)

/-! ## Calls -/

theorem Closure.run_traces {apply : Apply} (h : TracesCalls p apply) {c : Closure}
    (hc : c.MadeBy p) {args : List Value} (hargs : (Value.array args).MadeBy p) :
    Traces p (c.run apply args) (Value.MadeBy p) := by
  have henter : Traces p (enter c.env) fun _ => True :=
    .modifyGet fun _ hw => ⟨trivial, hw.push (some c.env)⟩
  exact Closure.run_ensures ((Value.eachAll_iff args).mp hargs) henter
    (fun env _ name _ => traces_declare env name)
    (fun env _ => c.body.eval_ensures (traces_rules h env) hc) fun _ => traces_raise

theorem applyVia_traces {enter : Closure → List Value → Eval Value} {callee : Expr}
    {es : List Expr} {s : Span} (hnode : HasNode p (.expr (.call callee es s)))
    (henter : ∀ c args, c.MadeBy p → (Value.array args).MadeBy p →
      Traces p (enter c args) (Value.MadeBy p)) {f : Value} {args : List Value} (hf : f.MadeBy p)
    (hargs : (Value.array args).MadeBy p) :
    Traces p (applyVia enter f args s) (Value.MadeBy p) := by
  have hclosure : ∀ c, f = .closure c → c.MadeBy p := by
    rintro c rfl
    exact hf
  exact applyVia_ensures (fun c hc => henter c args (hclosure c hc) hargs) (fun _ _ hw => hw)
    (fun _ _ hr => traces_raise (Builtin.each_call hargs hr)) fun _ => Program.Blames.call hnode

theorem applyWithin_traces (limit n : Nat) : TracesCalls p (applyWithin limit n) := by
  induction n with
  | zero =>
      exact fun _ _ _ hnode _ _ => applyVia_traces hnode fun _ _ _ _ =>
        .throw (s := .fault _) (Program.Blames.call hnode (.callDepth limit))
  | succ n ih =>
      exact fun _ _ _ hnode _ _ => applyVia_traces hnode fun _ _ hc hargs =>
        Closure.run_traces ih hc hargs

/-! ## Programs -/

/-- A program that ends with a fault has a node to blame for it. -/
theorem Program.blames_of_run {w : World} (hw : w.MadeBy p) (limit : Nat) (env : Env) {f : Fault}
    (h : (Program.run limit env p w).1 = .signal (.fault f)) : p.Blames f.cause f.span := by
  have htraces : Traces p (Stmt.evalAll (applyWithin limit limit) env p .null) (Value.MadeBy p) :=
    Stmt.evalAll_ensures (traces_rules (applyWithin_traces limit limit) env) p
      (fun _ hs => .stmt hs) .null trivial
  have hend := htraces w hw
  simp only [Program.run, Eval.settle] at h
  cases hr : Stmt.evalAll (applyWithin limit limit) env p .null w with
  | ok v w' =>
      rw [hr] at h hend
      cases v with
      | signal s => exact hend.1.1.elim
      | _ => cases h
  | error s w' =>
      rw [hr] at h hend
      cases s with
      | fault g =>
          cases h
          exact hend.1
      | ret v =>
          have hv : v.MadeBy p := hend.1
          rw [show v = _ from h] at hv
          exact hv.1.elim

theorem World.MadeBy.newEnv : World.MadeBy p World.empty.newEnv.2 :=
  Heap.All.empty.push none

end Monkey
