import Monkey.Proofs.Eval.Termination

/-!
# The limit of nested calls

Two machines with different limits take the same steps until one is asked for a call too many. The
fault that this raises is held up by nothing on its way out, so a run that ends in another way has
met no such call, and would have gone the same way with every higher limit.
-/

namespace Monkey

namespace Machine

open Control

/-- The span of the call that would be one too many, if a function is about to be entered while
`limit` calls are open. -/
def State.excess? (limit : Nat) : State → Option Span
  | ⟨.apply (.closure c) args span, _, d, _⟩ =>
    if c.params.length = args.length ∧ limit ≤ d then some span else none
  | _ => none

variable {n m : Nat} {s t : State} {span : Span}

/-! ## At the limit -/

theorem step_of_excess (h : s.excess? n = some span) :
    s.step n = some ⟨raise (.fault ⟨.callDepth n, span⟩), s.frames, s.depth, s.world⟩ := by
  obtain ⟨c, k, d, w⟩ := s
  unfold State.excess? at h
  split at h
  · rename_i heq
    cases heq
    split at h
    · rename_i hc
      cases h
      exact congrArg some ((if_pos hc.1).trans (if_pos hc.2))
    · cases h
  · cases h

/-- A fault leaves all that waits, and nothing else happens on its way. -/
theorem fault_path (limit : Nat) (f : Fault) (k fs : List Frame) : ∀ (d : Nat) (w : World),
    ∃ d', Path limit (fun u => u.control = raise (.fault f) ∧ u.world = w)
      ⟨raise (.fault f), fs ++ k, d, w⟩ ⟨raise (.fault f), k, d', w⟩ := by
  induction fs with
  | nil => exact fun d w => ⟨d, .refl _⟩
  | cons frame fs ih =>
      intro d w
      have hstep : ∃ d', (State.mk (raise (.fault f)) (frame :: (fs ++ k)) d w).step limit =
          some ⟨raise (.fault f), fs ++ k, d', w⟩ := by
        cases frame <;> exact ⟨_, rfl⟩
      obtain ⟨d', hstep⟩ := hstep
      obtain ⟨d'', h⟩ := ih d' w
      exact ⟨d'', .step hstep ⟨rfl, rfl⟩ h⟩

theorem fault_reaches (limit : Nat) (f : Fault) (k : List Frame) (d : Nat) (w : World) :
    ∃ d', Reaches limit ⟨raise (.fault f), k, d, w⟩ ⟨raise (.fault f), [], d', w⟩ := by
  obtain ⟨d', h⟩ := fault_path limit f [] k d w
  rw [List.append_nil] at h
  exact ⟨d', h.reaches⟩

/-! ## Below the limit -/

theorem enterCall_eq_of_not_excess {f : Value} {args : List Value} {k : List Frame} {d : Nat}
    {w : World} (h : State.excess? n ⟨.apply f args span, k, d, w⟩ = none) (hnm : n ≤ m) :
    enterCall n args span k d w f = enterCall m args span k d w f := by
  cases f with
  | closure c =>
      by_cases hc : c.params.length = args.length
      · have hn : ¬n ≤ d := fun hd => by simp [State.excess?, hc, hd] at h
        have hm : ¬m ≤ d := fun hd => hn (Nat.le_trans hnm hd)
        simp only [enterCall, if_pos hc, if_neg hn, if_neg hm]
      · simp only [enterCall, if_neg hc]
  | _ => rfl

theorem step_eq_of_not_excess (h : s.excess? n = none) (hnm : n ≤ m) : s.step n = s.step m := by
  obtain ⟨c, k, d, w⟩ := s
  cases c with
  | apply f args span => exact congrArg some (enterCall_eq_of_not_excess h hnm)
  | items env done todo use => cases todo <;> cases use <;> rfl
  | pairs env todo entries => rcases todo with _ | ⟨⟨key, value⟩, ps⟩ <;> rfl
  | stmts env todo last => cases todo <;> rfl
  | give v => cases k <;> rfl
  | raise r => cases k <;> rfl
  | _ => rfl

/-- A run either meets a call too many, or goes the same way with a higher limit. -/
theorem Path.raise_limit (h : Reaches n s t) (hnm : n ≤ m) :
    (∃ u span, Reaches n s u ∧ u.excess? n = some span) ∨ Reaches m s t := by
  induction h with
  | refl s => exact .inr (.refl s)
  | @step s t u hs _ _ ih =>
      cases he : s.excess? n with
      | some span => exact .inl ⟨s, span, .refl s, he⟩
      | none =>
          rcases ih with ⟨v, span, hv, hspan⟩ | h
          · exact .inl ⟨v, span, .step hs trivial hv, hspan⟩
          · exact .inr (.step (step_eq_of_not_excess he hnm ▸ hs) trivial h)

/-! ## Programs -/

/-- Where a run comes to an end, there evaluation by recursion ends. -/
theorem ended_of_reaches {c : Control} {d : Nat} {w : World} (h : Reaches n ⟨c, [], d, w⟩ t)
    (ht : t.step n = none) : State.ended [] d (c.eval (applyWithin n (n - d)) w) = t :=
  ((control_ends n d c [] w).reaches.through (step_ended n d _) h).eq_of_halted ht

section Programs

variable (env : Env) (p : Program) (w : World)

theorem run_of_reaches {t : State} (h : Reaches n (.start env p w) t) (ht : t.step n = none) :
    Program.run n env p w = (t.outcome.1.unwrapReturn, t.outcome.2) := by
  have hend : State.ended [] 0 (Stmt.evalAll (applyWithin n n) env p .null w) = t :=
    ended_of_reaches h ht
  rw [run_eq_outcome, hend]

theorem run_of_excess (hs : Reaches n (.start env p w) s) (he : s.excess? n = some span) :
    (Program.run n env p w).1 = .signal (.fault ⟨.callDepth n, span⟩) := by
  obtain ⟨d, hfault⟩ := fault_reaches n ⟨.callDepth n, span⟩ s.frames s.depth s.world
  have hstep : Reaches n s _ := .step (step_of_excess he) trivial hfault
  rw [run_of_reaches env p w (hs.trans hstep) rfl]
  rfl

/-- A run that does not end at the limit ends in the same way with a higher limit; and one that
meets the limit anywhere ends there. -/
theorem run_raise_limit (hnm : n ≤ m) :
    ((∀ span, (Program.run n env p w).1 ≠ .signal (.fault ⟨.callDepth n, span⟩)) →
      Program.run m env p w = Program.run n env p w) ∧
    ∀ (s : State) (span : Span), Reaches n (.start env p w) s → s.excess? n = some span →
      (Program.run n env p w).1 = .signal (.fault ⟨.callDepth n, span⟩) := by
  refine ⟨fun hrun => ?_, fun s span => run_of_excess env p w⟩
  have hhalt (l : Nat) := step_ended l 0 (Stmt.evalAll (applyWithin n n) env p .null w)
  rcases (start_reaches n env p w).raise_limit hnm with ⟨u, span, hu, hspan⟩ | h
  · exact absurd (run_of_excess env p w hu hspan) (hrun span)
  · rw [run_of_reaches env p w h (hhalt m), run_eq_outcome]

end Programs

/-- The state after some steps, or the last one before that. -/
def State.after (limit : Nat) : Nat → State → State
  | 0, s => s
  | i + 1, s =>
    match s.step limit with
    | none => s
    | some t => t.after limit i

theorem reaches_after (limit i : Nat) (s : State) : Reaches limit s (s.after limit i) := by
  induction i generalizing s with
  | zero => exact .refl s
  | succ i ih =>
      rw [State.after]
      split
      · exact .refl s
      · rename_i t ht
        exact .step ht trivial (ih t)

/-- After `let f = fn(n) { if (n == 0) { n } else { f(n - 1) } };`, the call `f(2)` needs three
calls at a time: two are too few, and with three the result is that with five. -/
theorem run_raise_limit_countdown :
    let s : Span := ⟨0, 0⟩
    let n := Expr.ident "n" s
    let again := Expr.call (.ident "f" s) [.binary .subtract n (.int 1 s) s] ⟨37, 8⟩
    let body := Expr.cond (.binary .equal n (.int 0 s) s) (.mk [.expr n s] s)
      (some (.mk [.expr again s] s)) s
    let p : Program := [.bind ⟨"f", s⟩ (.fn [⟨"n", s⟩] (.mk [.expr body s] s) s) s,
      .expr (.call (.ident "f" s) [.int 2 s] s) s]
    let env := World.empty.newEnv.1
    let w := World.empty.newEnv.2
    (Program.run 2 env p w).1 = .signal (.fault ⟨.callDepth 2, ⟨37, 8⟩⟩) ∧
      (Program.run 3 env p w).1.text = "0" ∧ Program.run 5 env p w = Program.run 3 env p w := by
  intro s n again body p env w
  have hexcess : ((State.start env p w).after 2 69).excess? 2 = some ⟨37, 8⟩ := by decide +kernel
  have hvalue : (Program.run 3 env p w).1.isFault = false := by decide +kernel
  have htext : (Program.run 3 env p w).1.text = "0" := by decide +kernel
  refine ⟨?_, htext, ?_⟩
  · have hreached := reaches_after 2 69 (.start env p w)
    exact (run_raise_limit env p w (n := 2) (m := 5) (by decide)).2 _ _ hreached hexcess
  · refine (run_raise_limit env p w (n := 3) (m := 5) (by decide)).1 fun span hspan => ?_
    rw [hspan] at hvalue
    cases hvalue

end Machine

end Monkey
