import Monkey.Eval

/-!
# Evaluation step by step

A machine that evaluates trees without recursion. At any time it works on one thing, and a stack of
frames says which evaluations wait for the outcome of that, the innermost first. It counts the calls
that are open, and nothing bounds the number of its steps.
-/

namespace Monkey

namespace Machine

/-! ## States -/

/-- What a list of expressions is evaluated for. -/
inductive Use where
  | call (f : Value) (span : Span)
  | array

/-- An evaluation that waits for the value of a part. -/
inductive Frame where
  | unary (op : UnaryOp) (span : Span)
  | lhs (env : Env) (op : BinaryOp) (rhs : Expr) (span : Span)
  | rhs (op : BinaryOp) (a : Value) (span : Span)
  | test (env : Env) (yes : Block) (no : Option Block)
  | callee (env : Env) (args : List Expr) (span : Span)
  /-- The values before this one are in `done`, last first. -/
  | item (env : Env) (done : List Value) (todo : List Expr) (use : Use)
  | object (env : Env) (key : Expr) (span : Span)
  | key (a : Value) (span : Span)
  | pairKey (env : Env) (span : Span) (value : Expr) (todo : List (Expr × Expr))
      (entries : List (HashKey × Value))
  | pairValue (env : Env) (k : HashKey) (todo : List (Expr × Expr))
      (entries : List (HashKey × Value))
  | bind (env : Env) (name : String)
  | ret
  | stmts (env : Env) (todo : List Stmt)
  /-- A call, which waits for the body of the function. -/
  | call

/-- What the machine works on. -/
inductive Control where
  | expr (env : Env) (e : Expr)
  | items (env : Env) (done : List Value) (todo : List Expr) (use : Use)
  | pairs (env : Env) (todo : List (Expr × Expr)) (entries : List (HashKey × Value))
  | stmt (env : Env) (s : Stmt)
  | stmts (env : Env) (todo : List Stmt) (last : Value)
  /-- A name is looked for in the scope of `env` and then outward. -/
  | seek (env : Env) (name : String) (span : Span)
  | apply (f : Value) (args : List Value) (span : Span)
  /-- A value for the innermost frame. -/
  | give (v : Value)
  /-- A signal on its way out. -/
  | raise (s : Signal)

structure State where
  control : Control
  frames : List Frame
  /-- How many calls are open. -/
  depth : Nat
  world : World

namespace Control

def ofValue : Value → Control
  | .signal s => raise s
  | v => give v

def ofExcept (span : Span) : Except FaultCause Value → Control
  | .ok v => ofValue v
  | .error cause => raise (.fault ⟨cause, span⟩)

/-- The end of a search; a name that no scope binds may be that of a builtin. -/
def ofLookup (name : String) (span : Span) : Option Value → Control
  | some v => ofValue v
  | none =>
    match Builtin.ofName? name with
    | some b => give (.builtin b)
    | none => raise (.fault ⟨.unbound name, span⟩)

end Control

/-- The world with each name bound to the value at its place. -/
def bindAll (env : Env) : List Ident → List Value → World → World
  | p :: ps, v :: vs, w => bindAll env ps vs { w with heap := w.heap.declare env p.name v }
  | _, _, w => w

/-! ## Steps -/

open Control

/-- The start of the evaluation of a tree. -/
def enterExpr (env : Env) (k : List Frame) (d : Nat) (w : World) : Expr → State
  | .ident name s => ⟨seek env name s, k, d, w⟩
  | .int v _ => ⟨give (.int v), k, d, w⟩
  | .bool v _ => ⟨give (.bool v), k, d, w⟩
  | .str v _ => ⟨give (.str v), k, d, w⟩
  | .unary op operand s => ⟨expr env operand, .unary op s :: k, d, w⟩
  | .binary op lhs rhs s => ⟨expr env lhs, .lhs env op rhs s :: k, d, w⟩
  | .cond test yes no _ => ⟨expr env test, .test env yes no :: k, d, w⟩
  | .fn params body _ =>
    ⟨give (.closure ⟨w.functions, params, body, env⟩), k, d,
      { w with functions := w.functions + 1 }⟩
  | .call callee args s => ⟨expr env callee, .callee env args s :: k, d, w⟩
  | .array es _ => ⟨items env [] es .array, k, d, w⟩
  | .index object key s => ⟨expr env object, .object env key s :: k, d, w⟩
  | .hash ps _ => ⟨pairs env ps [], k, d, w⟩

def enterStmt (env : Env) (k : List Frame) (d : Nat) (w : World) : Stmt → State
  | .bind target value _ => ⟨expr env value, .bind env target.name :: k, d, w⟩
  | .ret value _ => ⟨expr env value, .ret :: k, d, w⟩
  | .expr value _ => ⟨expr env value, k, d, w⟩
  | .block body => ⟨stmts env body.stmts .null, k, d, w⟩

/-- One scope is looked at. -/
def seekIn (env : Env) (name : String) (span : Span) (w : World) : Control :=
  match w.heap.scopes[env.id]? with
  | none => ofLookup name span none
  | some s =>
    match Entries.get? name s.bindings with
    | some v => ofLookup name span (some v)
    | none =>
      match s.parent with
      | some p => seek p name span
      | none => ofLookup name span none

/-- A function is entered unless as many calls are open as may be. -/
def enterCall (limit : Nat) (args : List Value) (span : Span) (k : List Frame) (d : Nat)
    (w : World) : Value → State
  | .closure c =>
    if c.params.length = args.length then
      if limit ≤ d then ⟨raise (.fault ⟨.callDepth limit, span⟩), k, d, w⟩
      else
        let (env, heap) := w.heap.push (some c.env)
        ⟨stmts env c.body.stmts .null, .call :: k, d + 1,
          bindAll env c.params args { w with heap }⟩
    else ⟨raise (.fault ⟨.arity c.params.length args.length, span⟩), k, d, w⟩
  | .builtin b =>
    ⟨ofExcept span (b.call args), k, d, { w with output := w.output ++ b.written args }⟩
  | v => ⟨raise (.fault ⟨.notCallable v.typeName, span⟩), k, d, w⟩

/-- A frame gets the value that it waits for. -/
def resume (v : Value) (k : List Frame) (d : Nat) (w : World) : Frame → State
  | .unary op s => ⟨ofExcept s (Value.unary op v), k, d, w⟩
  | .lhs env op rhs s => ⟨expr env rhs, .rhs op v s :: k, d, w⟩
  | .rhs op a s => ⟨ofExcept s (Value.binary op a v), k, d, w⟩
  | .test env yes no =>
    if v.isTruthy then ⟨stmts env yes.stmts .null, k, d, w⟩
    else
      match no with
      | some b => ⟨stmts env b.stmts .null, k, d, w⟩
      | none => ⟨give .null, k, d, w⟩
  | .callee env args s => ⟨items env [] args (.call v s), k, d, w⟩
  | .item env done todo use => ⟨items env (v :: done) todo use, k, d, w⟩
  | .object env key s => ⟨expr env key, .key v s :: k, d, w⟩
  | .key a s => ⟨ofExcept s (a.index v), k, d, w⟩
  | .pairKey env s value todo entries =>
    match v.hashKey with
    | .ok key => ⟨expr env value, .pairValue env key todo entries :: k, d, w⟩
    | .error cause => ⟨raise (.fault ⟨cause, s⟩), k, d, w⟩
  | .pairValue env key todo entries => ⟨pairs env todo (Entries.put key v entries), k, d, w⟩
  | .bind env name => ⟨give .null, k, d, { w with heap := w.heap.declare env name v }⟩
  | .ret => ⟨raise (.ret v), k, d, w⟩
  | .stmts env todo => ⟨stmts env todo v, k, d, w⟩
  | .call => ⟨give v, k, d - 1, w⟩

/-- A signal ends the evaluation of a frame; a returned value goes no further than its call. -/
def unwind (s : Signal) (k : List Frame) (d : Nat) (w : World) : Frame → State
  | .call =>
    match s with
    | .ret v => ⟨ofValue v, k, d - 1, w⟩
    | .fault f => ⟨raise (.fault f), k, d - 1, w⟩
  | _ => ⟨raise s, k, d, w⟩

/-- The next state, when `limit` calls may be open at a time; none once there is nothing left to
do. -/
def State.step (limit : Nat) : State → Option State
  | ⟨expr env e, k, d, w⟩ => some (enterExpr env k d w e)
  | ⟨items _ done [] (.call f s), k, d, w⟩ => some ⟨apply f done.reverse s, k, d, w⟩
  | ⟨items _ done [] .array, k, d, w⟩ => some ⟨give (.array done.reverse), k, d, w⟩
  | ⟨items env done (e :: es) use, k, d, w⟩ => some ⟨expr env e, .item env done es use :: k, d, w⟩
  | ⟨pairs _ [] entries, k, d, w⟩ => some ⟨give (.hash entries), k, d, w⟩
  | ⟨pairs env ((key, value) :: ps) entries, k, d, w⟩ =>
    some ⟨expr env key, .pairKey env key.span value ps entries :: k, d, w⟩
  | ⟨stmt env s, k, d, w⟩ => some (enterStmt env k d w s)
  | ⟨stmts _ [] last, k, d, w⟩ => some ⟨give last, k, d, w⟩
  | ⟨stmts env (s :: ss) _, k, d, w⟩ => some ⟨stmt env s, .stmts env ss :: k, d, w⟩
  | ⟨seek env name s, k, d, w⟩ => some ⟨seekIn env name s w, k, d, w⟩
  | ⟨apply f args s, k, d, w⟩ => some (enterCall limit args s k d w f)
  | ⟨give _, [], _, _⟩ => none
  | ⟨give v, f :: k, d, w⟩ => some (resume v k d w f)
  | ⟨raise _, [], _, _⟩ => none
  | ⟨raise s, f :: k, d, w⟩ => some (unwind s k d w f)

/-! ## Runs -/

/-- A run from one state to another, where `P` holds of every state that is entered. -/
inductive Path (limit : Nat) (P : State → Prop) : State → State → Prop
  | refl (s : State) : Path limit P s s
  | step {s t u : State} : s.step limit = some t → P t → Path limit P t u → Path limit P s u

abbrev Reaches (limit : Nat) : State → State → Prop :=
  Path limit fun _ => True

variable {limit : Nat} {P Q : State → Prop} {s t u : State}

theorem Path.mono (h : Path limit P s t) (hPQ : ∀ u, P u → Q u) : Path limit Q s t := by
  induction h with
  | refl s => exact .refl s
  | step hs hP _ ih => exact .step hs (hPQ _ hP) ih

theorem Path.trans (h : Path limit P s t) (h' : Path limit P t u) : Path limit P s u := by
  induction h with
  | refl => exact h'
  | step hs hP _ ih => exact .step hs hP (ih h')

theorem Path.reaches (h : Path limit P s t) : Reaches limit s t :=
  h.mono fun _ _ => trivial

/-- A run that has come to its end has passed every state that it can reach. -/
theorem Path.through (h : Path limit P s t) (ht : t.step limit = none) (h' : Reaches limit s u) :
    Path limit P u t := by
  induction h' with
  | refl => exact h
  | step hs _ _ ih =>
      cases h with
      | refl =>
          rw [ht] at hs
          cases hs
      | step hs' _ h =>
          rw [hs] at hs'
          cases hs'
          exact ih h

theorem Path.eq_of_halted (h : Path limit P s t) (hs : s.step limit = none) : t = s := by
  cases h with
  | refl => rfl
  | step hs' _ _ =>
      rw [hs] at hs'
      cases hs'

/-- What comes to an end does not go on for ever. -/
theorem Path.not_forever (h : Path limit P s t) (ht : t.step limit = none) :
    ¬∃ run : Nat → State, run 0 = s ∧ ∀ i, (run i).step limit = some (run (i + 1)) := by
  induction h with
  | refl s =>
      rintro ⟨run, rfl, hrun⟩
      rw [hrun 0] at ht
      cases ht
  | step hs _ _ ih =>
      rintro ⟨run, rfl, hrun⟩
      rw [hrun 0] at hs
      cases hs
      exact ih ht ⟨fun i => run (i + 1), rfl, fun i => hrun (i + 1)⟩

end Machine

end Monkey
