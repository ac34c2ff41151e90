import Monkey.Proofs.Eval.Ensures

/-!
# What an evaluation leaves alone

An evaluation in an environment may bind the names there that a `let` of the tree is for, if it is
not inside a function literal. It changes no other scope that there was before, and a call changes
none at all: the scope where the parameters are bound is a new one.
-/

namespace Monkey

/-! ## Names a tree may bind -/

mutual
/-- The names that the `let` statements outside function literals are for. -/
def Expr.targets : Expr → List String
  | .ident _ _ | .int _ _ | .bool _ _ | .str _ _ | .fn _ _ _ => []
  | .unary _ operand _ => operand.targets
  | .binary _ lhs rhs _ => lhs.targets ++ rhs.targets
  | .cond test yes none _ => test.targets ++ yes.targets
  | .cond test yes (some no) _ => test.targets ++ yes.targets ++ no.targets
  | .call callee args _ => callee.targets ++ Expr.targetsAll args
  | .array items _ => Expr.targetsAll items
  | .index object key _ => object.targets ++ key.targets
  | .hash pairs _ => Expr.targetsPairs pairs

def Expr.targetsAll : List Expr → List String
  | [] => []
  | e :: es => e.targets ++ Expr.targetsAll es

def Expr.targetsPairs : List (Expr × Expr) → List String
  | [] => []
  | (key, value) :: ps => key.targets ++ value.targets ++ Expr.targetsPairs ps

def Stmt.targets : Stmt → List String
  | .bind target value _ => target.name :: value.targets
  | .ret value _ => value.targets
  | .expr value _ => value.targets
  | .block body => body.targets

def Stmt.targetsAll : List Stmt → List String
  | [] => []
  | s :: ss => s.targets ++ Stmt.targetsAll ss

def Block.targets : Block → List String
  | .mk stmts _ => Stmt.targetsAll stmts
end

theorem Expr.targetsAll_eq (es : List Expr) : Expr.targetsAll es = es.flatMap Expr.targets := by
  induction es with
  | nil => rfl
  | cons e es ih => rw [Expr.targetsAll, ih, List.flatMap_cons]

theorem Expr.targetsPairs_eq (ps : List (Expr × Expr)) :
    Expr.targetsPairs ps = ps.flatMap fun p => p.1.targets ++ p.2.targets := by
  induction ps with
  | nil => rfl
  | cons p ps ih => rw [Expr.targetsPairs, ih, List.flatMap_cons]

theorem Stmt.targetsAll_eq (ss : List Stmt) : Stmt.targetsAll ss = ss.flatMap Stmt.targets := by
  induction ss with
  | nil => rfl
  | cons s ss ih => rw [Stmt.targetsAll, ih, List.flatMap_cons]

theorem Block.targets_eq (b : Block) : b.targets = b.stmts.flatMap Stmt.targets := by
  cases b with
  | mk ss s => exact Stmt.targetsAll_eq ss

namespace Tree

def targets : Tree → List String
  | expr e => e.targets
  | stmt s => s.targets
  | block b => b.targets
  | ident _ => []

/-- What a part may bind that is evaluated with a node, the node may bind. -/
theorem targets_subset {t u : Tree} (h : t ∈ u.evaluated) : t.targets ⊆ u.targets := by
  intro name hname
  cases u with
  | ident x => cases h
  | block b =>
      obtain ⟨s, hs, rfl⟩ := List.mem_map.mp h
      rw [targets, Block.targets_eq]
      exact List.mem_flatMap.mpr ⟨s, hs, hname⟩
  | stmt s =>
      cases s
      all_goals
        simp only [evaluated, children, Stmt.children, targets, Stmt.targets] at h ⊢
        grind [targets]
  | expr e =>
      cases e
      case cond test yes no s =>
        cases no <;> grind [evaluated, children, Expr.children, targets, Expr.targets]
      all_goals
        simp only [evaluated, children, Expr.children, targets, Expr.targets, Expr.targetsAll_eq,
          Expr.targetsPairs_eq] at h ⊢
        grind [targets]

end Tree

/-! ## What every step keeps -/

namespace Eval

/-- What keeps an invariant when a tree is evaluated in `env` that binds none but these names. -/
structure Kept (I : World → Prop) (apply : Apply) (env : Env) (names : List String) : Prop where
  close : ∀ w, I w → I { w with functions := w.functions + 1 }
  declare : ∀ w name v, name ∈ names → I w → I { w with heap := w.heap.declare env name v }
  apply : ∀ f vs s, Keeps I (apply f vs s)

variable {I : World → Prop} {apply : Apply} {env : Env} {names : List String}

theorem keeps_declare {name : String} {v : Value}
    (h : ∀ w, I w → I { w with heap := w.heap.declare env name v }) :
    Keeps I (Eval.declare env name v) :=
  .modifyGet fun w hw => ⟨trivial, h w hw⟩

theorem keeps_raise (v : Value) : Keeps I (raise v) := by
  cases v with
  | signal s => exact .throw trivial
  | _ => exact .pure trivial

theorem keeps_lift (span : Span) (r : Except FaultCause Value) : Keeps I (lift span r) :=
  .lift (fun v _ => keeps_raise v) fun _ _ => trivial

theorem Kept.rules (h : Kept I apply env names) :
    Rules I (fun _ => True) (fun _ => True) (fun t => t.targets ⊆ names) apply env where
  part _ _ hu ht := fun _ hname => hu (Tree.targets_subset ht hname)
  int _ := trivial
  bool _ := trivial
  str _ := trivial
  null := trivial
  nil := trivial
  cons _ _ _ _ := trivial
  empty := trivial
  put _ _ _ _ _ := trivial
  ret _ _ := trivial
  name _ _ _ := .ofName (fun _ _ _ _ => trivial) (fun v _ => keeps_raise v) (fun _ => trivial)
    trivial
  unary _ _ s _ _ _ := keeps_lift s _
  binary _ _ _ s _ _ _ _ _ := keeps_lift s _
  index _ _ s _ _ _ _ _ := keeps_lift s _
  close _ _ _ _ := .modifyGet fun w hw => ⟨trivial, h.close w hw⟩
  call _ _ s f vs _ _ _ := h.apply f vs s
  key _ _ _ _ _ _ _ := .toKey fun _ _ => trivial
  declare _ _ _ v hn _ := keeps_declare fun w => h.declare w _ v (hn List.mem_cons_self)

end Eval

open Eval

section Trees

variable {I : World → Prop} {apply : Apply} {env : Env}

theorem Expr.eval_keeps (e : Expr) (h : Kept I apply env e.targets) : Keeps I (e.eval apply env) :=
  e.eval_ensures h.rules (List.Subset.refl _)

theorem Stmt.eval_keeps (s : Stmt) (h : Kept I apply env s.targets) : Keeps I (s.eval apply env) :=
  s.eval_ensures h.rules (List.Subset.refl _)

theorem Stmt.evalAll_keeps (ss : List Stmt) (last : Value)
    (h : Kept I apply env (Stmt.targetsAll ss)) : Keeps I (Stmt.evalAll apply env ss last) := by
  refine Stmt.evalAll_ensures h.rules ss (fun s hs name hname => ?_) last trivial
  rw [Stmt.targetsAll_eq]
  exact List.mem_flatMap.mpr ⟨s, hs, hname⟩

theorem Block.eval_keeps (b : Block) (h : Kept I apply env b.targets) :
    Keeps I (b.eval apply env) :=
  b.eval_ensures h.rules (List.Subset.refl _)

end Trees

/-! ## Scopes that only grow -/

namespace Heap

variable {h : Heap} {i : Nat} {s : Scope}

theorem getElem?_declare_of_ne {env : Env} (name : String) (v : Value) (hi : i ≠ env.id) :
    (h.declare env name v).scopes[i]? = h.scopes[i]? := by
  simp [declare, Array.getElem?_modify, Ne.symm hi]

theorem getElem?_declare {env : Env} (name : String) (v : Value)
    (hs : h.scopes[env.id]? = some s) : (h.declare env name v).scopes[env.id]? =
      some { s with bindings := Entries.put name v s.bindings } := by
  simp [declare, Array.getElem?_modify, hs]

theorem getElem?_push (parent : Option Env) (hs : h.scopes[i]? = some s) :
    (h.push parent).2.scopes[i]? = some s := by
  have hi := (Array.getElem?_eq_some_iff.mp hs).1
  simp only [push, Array.getElem?_push, if_neg (Nat.ne_of_lt hi), hs]

end Heap

namespace World

/-- No scope has changed and no text has been taken back; there may be new scopes and more text. -/
structure Grown (w w' : World) : Prop where
  scopes : ∀ (i : Nat) (s : Scope), w.heap.scopes[i]? = some s → w'.heap.scopes[i]? = some s
  output : ∃ text, w'.output = w.output ++ text

variable {w w' w'' : World}

theorem Grown.refl (w : World) : w.Grown w :=
  ⟨fun _ _ hs => hs, "", (String.append_empty).symm⟩

theorem Grown.size_le (h : w.Grown w') : w.heap.scopes.size ≤ w'.heap.scopes.size := by
  refine Nat.le_of_not_lt fun hlt => ?_
  have hs := h.scopes _ _ (Array.getElem?_eq_getElem hlt)
  simp at hs

theorem Grown.write (h : w.Grown w') (text : String) :
    w.Grown { w' with output := w'.output ++ text } := by
  obtain ⟨old, hold⟩ := h.output
  exact ⟨h.scopes, old ++ text, by simp only [hold, String.append_assoc]⟩

theorem Grown.push (h : w.Grown w') (parent : Option Env) :
    w.Grown { w' with heap := (w'.heap.push parent).2 } :=
  ⟨fun i s hs => Heap.getElem?_push parent (h.scopes i s hs), h.output⟩

/-- A name is bound in a scope that is new. -/
theorem Grown.declare {env : Env} (h : w.Grown w') (henv : w.heap.scopes.size ≤ env.id)
    (name : String) (v : Value) : w.Grown { w' with heap := w'.heap.declare env name v } := by
  refine ⟨fun i s hs => ?_, h.output⟩
  have hi := (Array.getElem?_eq_some_iff.mp hs).1
  exact (Heap.getElem?_declare_of_ne name v (by omega)).trans (h.scopes i s hs)

end World

/-! ## Calls -/

section Calls

open World (Grown)

variable {I : World → Prop} {w : World}

theorem Closure.run_grown {apply : Apply} (happly : ∀ f vs s, Keeps (Grown w) (apply f vs s))
    (c : Closure) (args : List Value) : Keeps (Grown w) (c.run apply args) := by
  have henter : Ensures (Grown w) (fun _ => True) (enter c.env)
      (fun env => w.heap.scopes.size ≤ env.id) :=
    .modifyGet fun w' hw => ⟨hw.size_le, hw.push (some c.env)⟩
  have hkept (env : Env) (henv : w.heap.scopes.size ≤ env.id) :
      Kept (Grown w) apply env c.body.targets :=
    ⟨fun w' hw => ⟨hw.scopes, hw.output⟩, fun w' name v _ hw => hw.declare henv name v, happly⟩
  exact Closure.run_ensures (fun v _ => trivial) henter
    (fun env henv name v _ => keeps_declare fun w' hw => hw.declare henv name v)
    (fun env henv => c.body.eval_keeps (hkept env henv)) fun v _ => keeps_raise v

theorem applyVia_grown {enter : Closure → List Value → Eval Value}
    (henter : ∀ c args, Keeps (Grown w) (enter c args)) (f : Value) (args : List Value)
    (span : Span) : Keeps (Grown w) (applyVia enter f args span) :=
  applyVia_ensures (fun c _ => henter c args) (fun _ text hw => hw.write text)
    (fun _ v _ => keeps_raise v) fun _ _ => trivial

theorem applyWithin_grown (limit n : Nat) (f : Value) (args : List Value) (span : Span) :
    Keeps (Grown w) (applyWithin limit n f args span) := by
  induction n generalizing f args span with
  | zero => exact applyVia_grown (fun _ _ => .throw trivial) f args span
  | succ n ih => exact applyVia_grown (Closure.run_grown ih) f args span

end Calls

/-! ## Trees in an environment -/

/-- Only these names may have been bound, or bound anew. -/
structure Scope.Rebound (names : List String) (s s' : Scope) : Prop where
  parent : s'.parent = s.parent
  bound : ∀ name, (Entries.get? name s.bindings).isSome → (Entries.get? name s'.bindings).isSome
  same : ∀ name, name ∉ names → Entries.get? name s'.bindings = Entries.get? name s.bindings

theorem Scope.Rebound.put {names : List String} {s s' : Scope} {name : String}
    (h : s.Rebound names s') (hname : name ∈ names) (v : Value) :
    s.Rebound names { s' with bindings := Entries.put name v s'.bindings } := by
  refine ⟨h.parent, fun other hother => ?_, fun other hother => ?_⟩
  · rw [Entries.get?_put]
    split
    · rfl
    · exact h.bound other hother
  · have hne : other ≠ name := fun he => hother (he ▸ hname)
    rw [Entries.get?_put, if_neg hne]
    exact h.same other hother

namespace World

/-- The world after an evaluation in `env` that binds none but these names there: all other scopes
are as they were, and no text has been taken back. -/
structure Frame (env : Env) (names : List String) (w w' : World) : Prop where
  inside : ∀ s : Scope, w.heap.scopes[env.id]? = some s →
    ∃ s', w'.heap.scopes[env.id]? = some s' ∧ s.Rebound names s'
  outside : ∀ (i : Nat) (s : Scope), i ≠ env.id → w.heap.scopes[i]? = some s →
    w'.heap.scopes[i]? = some s
  output : ∃ text, w'.output = w.output ++ text

variable {env : Env} {names : List String} {w w' w'' : World}

theorem Frame.refl (env : Env) (names : List String) (w : World) : w.Frame env names w :=
  ⟨fun s hs => ⟨s, hs, rfl, fun _ h => h, fun _ _ => rfl⟩, fun _ _ _ hs => hs,
    "", String.append_empty.symm⟩

theorem Frame.grown (h : w.Frame env names w') (hg : w'.Grown w'') : w.Frame env names w'' := by
  obtain ⟨old, hold⟩ := h.output
  obtain ⟨text, htext⟩ := hg.output
  refine ⟨fun s hs => ?_, fun i s hi hs => hg.scopes i s (h.outside i s hi hs), old ++ text, ?_⟩
  · obtain ⟨s', hs', hrebound⟩ := h.inside s hs
    exact ⟨s', hg.scopes _ s' hs', hrebound⟩
  · rw [htext, hold, String.append_assoc]

theorem Frame.declare {name : String} (h : w.Frame env names w') (hname : name ∈ names)
    (v : Value) : w.Frame env names { w' with heap := w'.heap.declare env name v } := by
  refine ⟨fun s hs => ?_, fun i s hi hs => ?_, h.output⟩
  · obtain ⟨s', hs', hrebound⟩ := h.inside s hs
    exact ⟨_, Heap.getElem?_declare name v hs', hrebound.put hname v⟩
  · exact (Heap.getElem?_declare_of_ne name v hi).trans (h.outside i s hi hs)

end World

/-- What a tree may bind frames its evaluation. -/
theorem kept_frame (limit n : Nat) (env : Env) (names : List String) (w : World) :
    Kept (w.Frame env names) (applyWithin limit n) env names where
  close _ hw := ⟨hw.inside, hw.outside, hw.output⟩
  declare _ _ v hname hw := hw.declare hname v
  apply f vs s := .of_rel (fun _ => applyWithin_grown limit n f vs s) World.Grown.refl
    fun _ _ => World.Frame.grown

def Node.targets : Node → List String
  | expr e => e.targets
  | stmt s => s.targets
  | program p => Stmt.targetsAll p

/-- However an evaluation ends, it has changed nothing but the names that it may bind in its own
environment, and the application of a value has changed nothing at all. -/
theorem run_frame (limit n : Nat) :
    (∀ (node : Node) (env : Env) (w : World),
      w.Frame env node.targets (node.run limit n env w).2) ∧
    ∀ (f : Value) (args : List Value) (span : Span) (w : World),
      w.Grown ((applyWithin limit n f args span).settle w).2 := by
  refine ⟨fun node env w => ?_, fun f args span w => ?_⟩
  · have hkept := kept_frame limit n env node.targets w
    have hw := World.Frame.refl env node.targets w
    cases node with
    | expr e => exact (e.eval_keeps hkept).settle hw
    | stmt s => exact (s.eval_keeps hkept).settle hw
    | program p => exact (Stmt.evalAll_keeps p .null hkept).settle hw
  · exact (applyWithin_grown limit n f args span).settle (World.Grown.refl w)

end Monkey
