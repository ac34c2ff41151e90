import Monkey.Builtin
import Monkey.Scope
import Monkey.Value.Operation

/-!
# Evaluation

An evaluation changes the world, and ends with a value or with a signal: a value that leaves the
function at hand, or a fault that leaves the program. A signal ends everything on its way.

The evaluation of trees is by recursion on the tree, given how functions are applied. Functions are
applied by recursion on the number of calls that may still be entered.
-/

namespace Monkey

/-! ## The world -/

/-- What evaluations share and change: the scopes, the text written, and the number of functions
made so far. -/
structure World where
  heap : Heap
  output : String
  functions : Nat

def World.empty : World :=
  ⟨.empty, "", 0⟩

abbrev Eval := EStateM Signal World

namespace Eval

/-- Gives a value back, or sends it on its way if it is a signal. -/
def raise : Value → Eval Value
  | .signal s => throw s
  | v => return v

def fail {α : Type} (cause : FaultCause) (span : Span) : Eval α :=
  throw (.fault ⟨cause, span⟩)

/-- The result of an operation, with its fault at a span. -/
def lift (span : Span) : Except FaultCause Value → Eval Value
  | .ok v => raise v
  | .error cause => fail cause span

def lookup (env : Env) (name : String) : Eval (Option Value) :=
  return (← get).heap.lookup env name

def declare (env : Env) (name : String) (v : Value) : Eval Unit :=
  modify fun w => { w with heap := w.heap.declare env name v }

/-- A new scope inside `env`. -/
def enter (env : Env) : Eval Env :=
  modifyGet fun w =>
    let (e, heap) := w.heap.push (some env)
    (e, { w with heap })

def write (text : String) : Eval Unit :=
  modify fun w => { w with output := w.output ++ text }

/-- A new function, unlike all others. -/
def close (params : List Ident) (body : Block) (env : Env) : Eval Value :=
  modifyGet fun w =>
    (.closure ⟨w.functions, params, body, env⟩, { w with functions := w.functions + 1 })

/-- The place where a value leaves its function. -/
def catchReturn (m : Eval Value) : Eval Value := fun w =>
  match m w with
  | .error (.ret v) w' => raise v w'
  | r => r

/-- How functions are applied: to values, for a call at a span. -/
abbrev Apply := Value → List Value → Span → Eval Value

end Eval

/-! ## Trees -/

open Eval

def Value.ofName (env : Env) (name : String) (span : Span) : Eval Value := do
  match ← lookup env name with
  | some v => raise v
  | none =>
    match Builtin.ofName? name with
    | some b => return .builtin b
    | none => fail (.unbound name) span

def Value.toKey (v : Value) (span : Span) : Eval HashKey :=
  match v.hashKey with
  | .ok k => return k
  | .error cause => fail cause span

mutual
def Expr.eval (apply : Apply) (env : Env) : Expr → Eval Value
  | .ident name s => Value.ofName env name s
  | .int v _ => return .int v
  | .bool v _ => return .bool v
  | .str v _ => return .str v
  | .unary op operand s => do
    let v ← operand.eval apply env
    lift s (Value.unary op v)
  | .binary op lhs rhs s => do
    let a ← lhs.eval apply env
    let b ← rhs.eval apply env
    lift s (Value.binary op a b)
  | .cond test yes none _ => do
    let v ← test.eval apply env
    if v.isTruthy then yes.eval apply env else return .null
  | .cond test yes (some no) _ => do
    let v ← test.eval apply env
    if v.isTruthy then yes.eval apply env else no.eval apply env
  | .fn params body _ => close params body env
  | .call callee args s => do
    let f ← callee.eval apply env
    let vs ← Expr.evalAll apply env args
    apply f vs s
  | .array items _ => do
    let vs ← Expr.evalAll apply env items
    return .array vs
  | .index object key s => do
    let a ← object.eval apply env
    let b ← key.eval apply env
    lift s (a.index b)
  | .hash pairs _ => do
    let entries ← Expr.evalPairs apply env pairs []
    return .hash entries

def Expr.evalAll (apply : Apply) (env : Env) : List Expr → Eval (List Value)
  | [] => return []
  | e :: es => do
    let v ← e.eval apply env
    let vs ← Expr.evalAll apply env es
    return v :: vs

/-- Puts the values into `entries`, in order; a key is checked before its value is evaluated. -/
def Expr.evalPairs (apply : Apply) (env : Env) :
    List (Expr × Expr) → List (HashKey × Value) → Eval (List (HashKey × Value))
  | [], entries => return entries
  | (key, value) :: ps, entries => do
    let k ← key.eval apply env
    let k ← k.toKey key.span
    let v ← value.eval apply env
    Expr.evalPairs apply env ps (Entries.put k v entries)

def Stmt.eval (apply : Apply) (env : Env) : Stmt → Eval Value
  | .bind target value _ => do
    let v ← value.eval apply env
    declare env target.name v
    return .null
  | .ret value _ => do
    let v ← value.eval apply env
    throw (.ret v)
  | .expr value _ => value.eval apply env
  | .block body => body.eval apply env

/-- The value of the last statement; `last` if there is none. -/
def Stmt.evalAll (apply : Apply) (env : Env) : List Stmt → Value → Eval Value
  | [], last => return last
  | s :: ss, _ => do
    let v ← s.eval apply env
    Stmt.evalAll apply env ss v

/-- A block binds names in the environment around it. -/
def Block.eval (apply : Apply) (env : Env) : Block → Eval Value
  | .mk stmts _ => Stmt.evalAll apply env stmts .null
end

/-! ## Calls -/

/-- Binds each name to the value at its place. -/
def Eval.declareAll (env : Env) : List Ident → List Value → Eval Unit
  | p :: ps, v :: vs => do
    declare env p.name v
    declareAll env ps vs
  | _, _ => return ()

/-- Binds the parameters in a new scope inside the function's own environment, and runs the body
there. -/
def Closure.run (apply : Apply) (c : Closure) (args : List Value) : Eval Value := do
  let env ← enter c.env
  declareAll env c.params args
  catchReturn (c.body.eval apply env)

/-- Applies a value to arguments, where `enter` runs a function that has as many parameters. -/
def applyVia (enter : Closure → List Value → Eval Value) : Apply := fun f args span => do
  match f with
  | .closure c =>
    if c.params.length = args.length then enter c args
    else fail (.arity c.params.length args.length) span
  | .builtin b =>
    write (b.written args)
    lift span (b.call args)
  | v => fail (.notCallable v.typeName) span

/-- Application when `limit` calls may be nested and `n` more of them may be entered. -/
def applyWithin (limit : Nat) : Nat → Apply
  | 0 => fun f args span => applyVia (fun _ _ => fail (.callDepth limit) span) f args span
  | n + 1 => applyVia (Closure.run (applyWithin limit n))

/-! ## Whole evaluations -/

/-- An evaluation's end as a value. -/
def Eval.settle (m : Eval Value) (w : World) : Value × World :=
  match m w with
  | .ok v w' => (v, w')
  | .error s w' => (.signal s, w')

/-- The number of calls that may be nested, if nothing else is said. -/
def defaultLimit : Nat := 1024

def Expr.run (limit : Nat) (env : Env) (e : Expr) (w : World) : Value × World :=
  (e.eval (applyWithin limit limit) env).settle w

def Stmt.run (limit : Nat) (env : Env) (s : Stmt) (w : World) : Value × World :=
  (s.eval (applyWithin limit limit) env).settle w

/-- A program ends at its first signal; the value that it returns is its value. -/
def Program.run (limit : Nat) (env : Env) (p : Program) (w : World) : Value × World :=
  let (v, w') := (Stmt.evalAll (applyWithin limit limit) env p .null).settle w
  (v.unwrapReturn, w')

namespace World

/-- A new environment, inside no other. -/
def newEnv (w : World) : Env × World :=
  let (e, heap) := w.heap.push none
  (e, { w with heap })

/-- A new environment inside `env`. -/
def newScope (w : World) (env : Env) : Env × World :=
  let (e, heap) := w.heap.push (some env)
  (e, { w with heap })

/-- The text written, which is taken out of the world. -/
def takeOutput (w : World) : String × World :=
  (w.output, { w with output := "" })

end World

end Monkey
