import Monkey.Proofs.Eval.Frame
import Monkey.Proofs.Eval.Handles
import Monkey.Proofs.Eval.Mirror
import Monkey.Proofs.Eval.Termination

/-!
# Evaluating an expression again

An expression without a `let` outside its function literals changes no scope that there was before,
so that to evaluate it again is to evaluate it in the same world with more scopes behind it. The
second evaluation mirrors the first, with its own new scopes and functions in the place of those.
-/

namespace Monkey

open Eval

/-! ## New handles for those behind a bound -/

/-- Scopes from number `n` on are moved by `k`, functions from number `m` on by `l`. -/
def Renaming.shift (n k m l : Nat) : Renaming :=
  ⟨id, fun e => ⟨if e.id < n then e.id else e.id + k⟩, fun i => if i < m then i else i + l⟩

def Scope.rename (r : Renaming) (s : Scope) : Scope :=
  ⟨s.bindings.map fun e => (e.1, e.2.rename r), s.parent.map r.env⟩

section Fixed

variable {r : Renaming} {p : Closure → Prop} {q : Prop}

mutual
/-- Where all functions keep their names, the value stays the same. -/
theorem Value.rename_eq_self (hspan : ∀ f : Fault, f.rename r = f)
    (hp : ∀ c, p c → c.rename r = c) :
    {v : Value} → v.Each p q → v.rename r = v
  | .int _, _ | .bool _, _ | .str _, _ | .null, _ | .builtin _, _ => rfl
  | .array _, h => congrArg Value.array (Value.renameAll_eq_self hspan hp h)
  | .hash _, h => congrArg Value.hash (Value.renameEntries_eq_self hspan hp h)
  | .closure c, h => congrArg Value.closure (hp c h)
  | .signal _, h => congrArg Value.signal (Signal.rename_eq_self hspan hp h.2)

theorem Value.renameAll_eq_self (hspan : ∀ f : Fault, f.rename r = f)
    (hp : ∀ c, p c → c.rename r = c) :
    {vs : List Value} → Value.EachAll p q vs → Value.renameAll r vs = vs
  | [], _ => rfl
  | _ :: _, h =>
      congrArg₂ List.cons (Value.rename_eq_self hspan hp h.1) (Value.renameAll_eq_self hspan hp h.2)

theorem Value.renameEntries_eq_self (hspan : ∀ f : Fault, f.rename r = f)
    (hp : ∀ c, p c → c.rename r = c) :
    {es : List (HashKey × Value)} → Value.EachEntries p q es → Value.renameEntries r es = es
  | [], _ => rfl
  | (k, _) :: _, h => by
      rw [Value.renameEntries, Value.rename_eq_self hspan hp h.1,
        Value.renameEntries_eq_self hspan hp h.2]

theorem Signal.rename_eq_self (hspan : ∀ f : Fault, f.rename r = f)
    (hp : ∀ c, p c → c.rename r = c) :
    {s : Signal} → s.Each p q → s.rename r = s
  | .ret _, h => congrArg Signal.ret (Value.rename_eq_self hspan hp h)
  | .fault f, _ => congrArg Signal.fault (hspan f)
end

end Fixed

namespace Renaming

variable {n k m l : Nat}

theorem shift_env_of_lt {e : Env} (h : e.id < n) : (shift n k m l).env e = e := by
  simp [shift, h]

theorem shift_env_id (e : Env) :
    ((shift n k m l).env e).id = if e.id < n then e.id else e.id + k := rfl

theorem shift_env_injective {e f : Env}
    (h : ((shift n k m l).env e).id = ((shift n k m l).env f).id) : e.id = f.id := by
  simp only [shift_env_id] at h
  split at h <;> split at h <;> omega

theorem shift_closure {c : Closure} (henv : c.env.id < n) (hid : c.id < m) :
    c.rename (shift n k m l) = c := by
  obtain ⟨i, params, body, env⟩ := c
  rw [Closure.rename, shift_env_of_lt henv]
  simp only [shift, if_pos hid, Ident.respan_id, List.map_id, Block.respan_id]

end Renaming

/-! ## Two worlds, one with more scopes -/

namespace World

/-- The worlds share the scopes before number `n` and the functions before number `m`; behind them
the second has `k` scopes and `l` functions more, and then what the first has. The same text has
been written to the one after `old` and to the other after `new`. -/
structure Shifted (n k m l : Nat) (old new : String) (u v : World) : Prop where
  size_le : n ≤ u.heap.scopes.size
  size : v.heap.scopes.size = u.heap.scopes.size + k
  functions_le : m ≤ u.functions
  functions : v.functions = u.functions + l
  scopes : ∀ (i : Nat) (s : Scope), u.heap.scopes[i]? = some s →
    v.heap.scopes[((Renaming.shift n k m l).env ⟨i⟩).id]? =
      some (s.rename (Renaming.shift n k m l))
  output : ∃ text, u.output = old ++ text ∧ v.output = new ++ text

namespace Shifted

variable {n k m l : Nat} {old new : String} {u v : World}

theorem env_lt_iff (h : Shifted n k m l old new u v) (e : Env) :
    v.HasEnv ((Renaming.shift n k m l).env e) ↔ u.HasEnv e := by
  have hle := h.size_le
  rw [HasEnv, HasEnv, h.size, Renaming.shift_env_id]
  split <;> omega

/-- What one world finds under a name, the other finds, renamed. -/
theorem lookup (h : Shifted n k m l old new u v) (env : Env) (name : String) :
    v.heap.lookup ((Renaming.shift n k m l).env env) name =
      (u.heap.lookup env name).map (Value.rename (Renaming.shift n k m l)) := by
  induction hi : env.id using Nat.strongRecOn generalizing env with
  | ind i ih =>
  subst hi
  rw [Heap.lookup_eq, Heap.lookup_eq u.heap]
  cases hs : u.heap.scopes[env.id]? with
  | none =>
      have hnone : v.heap.scopes[((Renaming.shift n k m l).env env).id]? = none := by
        rw [Array.getElem?_eq_none_iff, ← Nat.not_lt] at hs ⊢
        exact mt (h.env_lt_iff env).mp hs
      rw [hnone]
      rfl
  | some s =>
      rw [h.scopes env.id s hs]
      simp only [Scope.rename, Entries.get?_rename]
      cases Entries.get? name s.bindings with
      | some x => rfl
      | none =>
          cases hparent : s.parent with
          | none => rfl
          | some p =>
              obtain ⟨hlt, rfl⟩ := Array.getElem?_eq_some_iff.mp hs
              exact ih p.id (u.heap.parent_lt env.id hlt p hparent) p rfl

theorem declare (h : Shifted n k m l old new u v) (env : Env) (name : String) (x : Value) :
    Shifted n k m l old new { u with heap := u.heap.declare env name x }
      { v with
        heap := v.heap.declare ((Renaming.shift n k m l).env env) name
          (x.rename (Renaming.shift n k m l)) } := by
  refine ⟨?_, ?_, h.functions_le, h.functions, fun i s hs => ?_, h.output⟩
  · simpa [Heap.declare] using h.size_le
  · simpa [Heap.declare] using h.size
  · simp only [Heap.declare, Array.getElem?_modify] at hs ⊢
    by_cases hi : env.id = i
    · subst hi
      rw [if_pos rfl] at hs ⊢
      obtain ⟨t, ht, rfl⟩ := Option.map_eq_some_iff.mp hs
      rw [h.scopes env.id t ht, Option.map_some, Scope.rename, Scope.rename, Entries.put_rename]
    · rw [if_neg hi] at hs
      rw [if_neg fun he => hi (Renaming.shift_env_injective he), h.scopes i s hs]

theorem push (h : Shifted n k m l old new u v) (env : Env) :
    (v.heap.push (some ((Renaming.shift n k m l).env env))).1 =
        (Renaming.shift n k m l).env (u.heap.push (some env)).1 ∧
      Shifted n k m l old new { u with heap := (u.heap.push (some env)).2 }
        { v with heap := (v.heap.push (some ((Renaming.shift n k m l).env env))).2 } := by
  have hle := h.size_le
  have hsize := h.size
  have hnew : (Renaming.shift n k m l).env ⟨u.heap.scopes.size⟩ = ⟨v.heap.scopes.size⟩ := by
    simp [Renaming.shift, hsize, Nat.not_lt.mpr hle]
  refine ⟨hnew.symm, ⟨?_, ?_, h.functions_le, h.functions, fun i s hs => ?_, h.output⟩⟩
  · simp only [Heap.push, Array.size_push]
    omega
  · simp only [Heap.push, Array.size_push]
    omega
  · simp only [Heap.push, Array.getElem?_push] at hs ⊢
    by_cases hi : i = u.heap.scopes.size
    · subst hi
      rw [if_pos rfl] at hs
      cases hs
      rw [hnew, if_pos rfl]
      have hiff := h.env_lt_iff env
      simp only [HasEnv] at hiff
      by_cases henv : env.id < u.heap.scopes.size
      · simp [Scope.rename, Option.filter, henv, hiff.mpr henv]
      · simp [Scope.rename, Option.filter, henv, mt hiff.mp henv]
    · rw [if_neg hi] at hs
      have hlt : i < u.heap.scopes.size := (Array.getElem?_eq_some_iff.mp hs).1
      have hne := (h.env_lt_iff ⟨i⟩).mpr hlt
      rw [if_neg (Nat.ne_of_lt hne), h.scopes i s hs]

end Shifted

theorem mirrored_shifted (n k m l : Nat) (old new : String) :
    Mirrored (Renaming.shift n k m l) (Shifted n k m l old new) where
  lookup _ _ env name h := h.lookup env name
  declare _ _ env name x h := h.declare env name x
  enter _ _ env h := h.push env
  write _ _ text h := by
    obtain ⟨t, hu, hv⟩ := h.output
    refine ⟨h.size_le, h.size, h.functions_le, h.functions, h.scopes, t ++ text, ?_, ?_⟩
    · simp only [hu, String.append_assoc]
    · simp only [hv, String.append_assoc]
  close _ _ h := by
    have hle := h.functions_le
    have hfunctions := h.functions
    refine ⟨?_, ⟨h.size_le, h.size, ?_, ?_, h.scopes, h.output⟩⟩
    · simp [Renaming.shift, hfunctions, Nat.not_lt.mpr hle]
    · exact Nat.le_succ_of_le hle
    · simp only [hfunctions]
      omega

end World

theorem Scope.rename_eq_self {r : Renaming} {s : Scope}
    (hbindings : ∀ b ∈ s.bindings, b.2.rename r = b.2) (hparent : ∀ p ∈ s.parent, r.env p = p) :
    s.rename r = s := by
  obtain ⟨bindings, parent⟩ := s
  rw [rename, mk.injEq]
  refine ⟨?_, ?_⟩
  · refine (List.map_congr_left fun b hb => ?_).trans (List.map_id bindings)
    exact Prod.ext rfl (hbindings b hb)
  · cases parent with
    | none => rfl
    | some p => exact congrArg some (hparent p rfl)

/-! ## Two runs -/

/-- The handles of `w` keep their names, and different handles get different names; those that
`w` does not have become handles that `w'` does not have. -/
structure Renaming.Afresh (r : Renaming) (w w' : World) : Prop where
  span : ∀ s, r.span s = s
  env : ∀ e, w.HasEnv e → r.env e = e
  newEnv : ∀ e, ¬w.HasEnv e → ¬w'.HasEnv (r.env e)
  env_injective : ∀ e f, r.env e = r.env f → e = f
  function : ∀ i, i < w.functions → r.function i = i
  newFunction : ∀ i, w.functions ≤ i → w'.functions ≤ r.function i
  function_injective : ∀ i j, r.function i = r.function j → i = j

namespace World

variable {w w' : World}

/-- New handles for those that come after `w`, behind all that there are in `w'`. -/
def shift (w w' : World) : Renaming :=
  .shift w.heap.scopes.size (w'.heap.scopes.size - w.heap.scopes.size) w.functions
    (w'.functions - w.functions)

theorem shift_afresh (h : w.Extends w') : (w.shift w').Afresh w w' := by
  have hscopes := h.scopes
  have hfunctions := h.functions
  refine ⟨fun _ => rfl, fun e he => Renaming.shift_env_of_lt he, fun e he => ?_,
    fun e f hef => ?_, fun i hi => if_pos hi, fun i hi => ?_, fun i j hij => ?_⟩
  · rw [HasEnv] at he ⊢
    rw [shift, Renaming.shift_env_id, if_neg he]
    omega
  · have hid := Renaming.shift_env_injective (congrArg Env.id hef)
    cases e
    cases f
    exact congrArg Env.mk hid
  · simp only [shift, Renaming.shift]
    rw [if_neg (Nat.not_lt.mpr hi)]
    omega
  · simp only [shift, Renaming.shift] at hij
    split at hij <;> split at hij <;> omega

/-- A scope that there was before has none of the handles that are moved. -/
theorem Closed.scope_rename (h : w.Closed) {i : Nat} {s : Scope}
    (hs : w.heap.scopes[i]? = some s) : s.rename (w.shift w') = s := by
  refine Scope.rename_eq_self (fun b hb => ?_) fun p hp => ?_
  · exact Value.rename_eq_self (fun _ => rfl) (fun _ hc => Renaming.shift_closure hc.1 hc.2)
      (h i s hs b hb)
  · obtain ⟨hi, rfl⟩ := Array.getElem?_eq_some_iff.mp hs
    exact Renaming.shift_env_of_lt (Nat.lt_trans (w.heap.parent_lt i hi p hp) hi)

/-- A closed world, and what it has grown into. -/
theorem Closed.shifted (h : w.Closed) (hgrown : w.Grown w') (hext : w.Extends w') :
    Shifted w.heap.scopes.size (w'.heap.scopes.size - w.heap.scopes.size) w.functions
      (w'.functions - w.functions) w.output w'.output w w' := by
  have hscopes := hext.scopes
  have hfunctions := hext.functions
  refine ⟨Nat.le_refl _, by omega, Nat.le_refl _, by omega, fun i s hs => ?_, "",
    String.append_empty.symm, String.append_empty.symm⟩
  have hi : i < w.heap.scopes.size := (Array.getElem?_eq_some_iff.mp hs).1
  rw [Renaming.shift_env_of_lt hi, hgrown.scopes i s hs]
  exact congrArg some (h.scope_rename hs).symm

end World

/-- The first of two evaluations in a row has begun in `w`, and the second has done as the first. -/
structure World.Repeats (w : World) (first second : Value × World) : Prop where
  /-- Both times the same text has been written. -/
  output : ∃ text, first.2.output = w.output ++ text ∧ second.2.output = first.2.output ++ text
  /-- No scope has changed that there was before. -/
  scopes : ∀ (i : Nat) (s : Scope), w.heap.scopes[i]? = some s →
    first.2.heap.scopes[i]? = some s ∧ second.2.heap.scopes[i]? = some s
  /-- The results are the same but for the new scopes and functions, and so are the new scopes. -/
  renamed : ∃ r : Renaming, r.Afresh w first.2 ∧ second.1 = first.1.rename r ∧
    ∀ (i : Nat) (s : Scope), first.2.heap.scopes[i]? = some s →
      second.2.heap.scopes[(r.env ⟨i⟩).id]? = some (s.rename r)
  text : second.1.text = first.1.text
  typeName : second.1.typeName = first.1.typeName
  /-- A fault is the same fault at the same place. -/
  fault : ∀ f, first.1 = .signal (.fault f) ↔ second.1 = .signal (.fault f)
  /-- A value on its way out of a function is on its way out again. -/
  ret : ∀ v, first.1 = .signal (.ret v) →
    ∃ v', second.1 = .signal (.ret v') ∧ v'.text = v.text ∧ v'.typeName = v.typeName

/-- The first evaluation has changed no scope, and the second has mirrored it. -/
theorem World.Repeats.of_shifted {w : World} {first second : Value × World} (hw : w.Closed)
    (hgrown : w.Grown first.2) (hext : w.Extends first.2)
    (hvalue : second.1 = first.1.rename (w.shift first.2))
    (hworld : Shifted w.heap.scopes.size (first.2.heap.scopes.size - w.heap.scopes.size)
      w.functions (first.2.functions - w.functions) w.output first.2.output first.2 second.2) :
    w.Repeats first second := by
  have hfault (f : Fault) : f.rename (w.shift first.2) = f := rfl
  refine ⟨hworld.output, fun i s hs => ⟨hgrown.scopes i s hs, ?_⟩,
    ⟨w.shift first.2, shift_afresh hext, hvalue, hworld.scopes⟩, ?_, ?_, fun f => ?_,
    fun v hv => ?_⟩
  · have hi : i < w.heap.scopes.size := (Array.getElem?_eq_some_iff.mp hs).1
    have hsecond := hworld.scopes i s (hgrown.scopes i s hs)
    rw [Renaming.shift_env_of_lt hi] at hsecond
    exact hsecond.trans (congrArg some (hw.scope_rename hs))
  · rw [hvalue, Value.text_rename]
  · rw [hvalue, Value.typeName_rename]
  · rw [hvalue]
    constructor
    · intro hf
      rw [hf, Value.rename, Signal.rename, hfault]
    · intro hf
      cases hv : first.1 with
      | signal s =>
          rw [hv] at hf
          cases s with
          | ret v => cases hf
          | fault g => exact hf
      | _ =>
          rw [hv] at hf
          cases hf
  · rw [hvalue, hv]
    exact ⟨v.rename (w.shift first.2), by simp, by simp, by simp⟩

/-- Without a `let` outside its function literals an expression changes no scope there was. -/
theorem Expr.run_grown (limit : Nat) (env : Env) {e : Expr} (he : e.targets = []) (w : World) :
    w.Grown (e.run limit env w).2 := by
  have hkept : Kept w.Grown (applyWithin limit limit) env e.targets :=
    ⟨fun _ hw => ⟨hw.scopes, hw.output⟩, fun _ _ _ hname => absurd hname (by simp [he]),
      applyWithin_grown limit limit⟩
  exact (e.eval_keeps hkept).settle (World.Grown.refl w)

namespace Machine

/-- An expression that is evaluated with no call open ends with none open. -/
theorem expr_reaches (limit : Nat) (env : Env) (e : Expr) (w : World) :
    ∃ t : State, Reaches limit ⟨.expr env e, [], 0, w⟩ t ∧ t.step limit = none ∧ t.depth = 0 ∧
      t.outcome = e.run limit env w ∧ t.world = (e.run limit env w).2 := by
  have hreach := (control_ends limit 0 (.expr env e) [] w).reaches
  obtain ⟨houtcome, hdepth, hworld⟩ := outcome_ended (e.eval (applyWithin limit limit) env) w 0
  exact ⟨_, hreach, step_ended limit 0 _, hdepth, houtcome, hworld⟩

end Machine

/-- An expression without a `let` outside its function literals does the same when it is evaluated
again. The machine that counts the open calls begins the second evaluation with the counter that
the first has left, and ends it in the same way. -/
theorem Expr.run_repeats {w : World} {env : Env} (hw : w.Reached) (henv : w.HasEnv env)
    (limit : Nat) {e : Expr} (he : e.targets = []) :
    w.Repeats (e.run limit env w) (e.run limit env (e.run limit env w).2) ∧
    ∃ first second : Machine.State,
      Machine.Reaches limit ⟨.expr env e, [], 0, w⟩ first ∧ first.step limit = none ∧
      Machine.Reaches limit ⟨.expr env e, [], first.depth, first.world⟩ second ∧
      second.step limit = none ∧ first.outcome = e.run limit env w ∧
      second.outcome = e.run limit env (e.run limit env w).2 := by
  have hclosed := hw.closed
  have hgrown := e.run_grown limit env he w
  have hext := ((Node.expr e).run_safe limit limit hclosed henv).1
  refine ⟨?_, ?_⟩
  · have hmirror := World.mirrored_shifted w.heap.scopes.size
      ((e.run limit env w).2.heap.scopes.size - w.heap.scopes.size) w.functions
      ((e.run limit env w).2.functions - w.functions) w.output (e.run limit env w).2.output
    have heval := e.eval_mirrors hmirror (applyWithin_mirrors hmirror limit limit) env
    have hspan : ∀ n k m l, (Renaming.shift n k m l).span = id := fun _ _ _ _ => rfl
    rw [hspan, Expr.respan_id, Renaming.shift_env_of_lt henv] at heval
    obtain ⟨hvalue, hworld⟩ := heval.settle (hclosed.shifted hgrown hext)
    exact .of_shifted hclosed hgrown hext hvalue hworld
  · obtain ⟨first, hfirst, hend, hdepth, houtcome, hworld⟩ := Machine.expr_reaches limit env e w
    obtain ⟨second, hsecond, hend', -, houtcome', -⟩ :=
      Machine.expr_reaches limit env e (e.run limit env w).2
    refine ⟨first, second, hfirst, hend, ?_, hend', houtcome, houtcome'⟩
    rw [hdepth, hworld]
    exact hsecond

/-- After `let add = fn(x) { fn(y) { x + y } };`, the expression `[add(1), puts("a")]`, whose array
has a new function in it each time. -/
theorem Expr.run_repeats_closure :
    let s : Span := ⟨0, 0⟩
    let inner := Expr.fn [⟨"y", s⟩]
      (.mk [.expr (.binary .add (.ident "x" s) (.ident "y" s) s) s] s) s
    let p : Program := [.bind ⟨"add", s⟩ (.fn [⟨"x", s⟩] (.mk [.expr inner s] s) s) s]
    let e := Expr.array
      [.call (.ident "add" s) [.int 1 s] s, .call (.ident "puts" s) [.str "a" s] s] s
    let env := World.empty.newEnv.1
    let w := ((Node.program p).run 8 8 env World.empty.newEnv.2).2
    (w.Reached ∧ w.HasEnv env ∧ e.targets = []) ∧
      (e.run 8 env (e.run 8 env w).2).1.text = "[fn(y) \x7b\n(x + y)\n\x7d, null]" ∧
      (e.run 8 env (e.run 8 env w).2).2.output = "a\na\n" ∧
      (e.run 8 env (e.run 8 env w).2).2.functions = 3 ∧
      w.Repeats (e.run 8 env w) (e.run 8 env (e.run 8 env w).2) := by
  intro s inner p e env w
  have hnew : World.Reached World.empty.newEnv.2 := .newEnv .empty
  have henv : World.HasEnv World.empty.newEnv.2 env := Nat.zero_lt_one
  have hw : w.Reached := .run 8 8 (.program p) hnew henv
  have henv' : w.HasEnv env := ((Node.program p).run_safe 8 8 hnew.closed henv).1.hasEnv henv
  have he : e.targets = [] := by decide
  exact ⟨⟨hw, henv', he⟩, by decide +kernel, by decide +kernel, by decide +kernel,
    (Expr.run_repeats hw henv' 8 he).1⟩

end Monkey
