import Mathlib.Data.List.Infix
import Monkey.Proofs.Eval.Limit

/-!
# The first signal wins

When a part of an evaluation yields a signal, all evaluations that wait for it are left one after
the other, and nothing else happens: nothing is evaluated, bound or written any more. A value that
is returned goes as far as its function, and a fault goes as far as the program.
-/

namespace Monkey

namespace Machine

open Control

variable {limit d : Nat} {c c' : Control} {s t u : State} {k fs : List Frame} {w w' w'' : World}

/-! ## More that waits -/

/-- The state where, further out, the frames `k` wait as well. -/
def State.onto (s : State) (k : List Frame) : State :=
  { s with frames := s.frames ++ k }

section Onto

variable (k)

theorem enterExpr_onto (env : Env) (e : Expr) :
    enterExpr env (fs ++ k) d w e = (enterExpr env fs d w e).onto k := by
  cases e <;> rfl

theorem enterStmt_onto (env : Env) (s : Stmt) :
    enterStmt env (fs ++ k) d w s = (enterStmt env fs d w s).onto k := by
  cases s <;> rfl

theorem enterCall_onto (args : List Value) (span : Span) (v : Value) :
    enterCall limit args span (fs ++ k) d w v = (enterCall limit args span fs d w v).onto k := by
  cases v with
  | closure c =>
      simp only [enterCall]
      split
      · split <;> rfl
      · rfl
  | _ => rfl

theorem resume_onto (v : Value) (f : Frame) :
    resume v (fs ++ k) d w f = (resume v fs d w f).onto k := by
  cases f with
  | test env yes no =>
      simp only [resume]
      split
      · rfl
      · cases no <;> rfl
  | pairKey env s value todo entries =>
      simp only [resume]
      split <;> rfl
  | _ => rfl

theorem unwind_onto (r : Signal) (f : Frame) :
    unwind r (fs ++ k) d w f = (unwind r fs d w f).onto k := by
  cases f with
  | call => cases r <;> rfl
  | _ => rfl

/-- A step is the same, whatever waits further out. -/
theorem step_onto (h : s.step limit = some t) : (s.onto k).step limit = some (t.onto k) := by
  obtain ⟨c, fs, d, w⟩ := s
  cases c with
  | expr env e =>
      cases h
      exact congrArg some (enterExpr_onto k env e)
  | items env done todo use => cases todo <;> cases use <;> cases h <;> rfl
  | pairs env todo entries => rcases todo with _ | ⟨⟨key, value⟩, ps⟩ <;> cases h <;> rfl
  | stmt env s =>
      cases h
      exact congrArg some (enterStmt_onto k env s)
  | stmts env todo last => cases todo <;> cases h <;> rfl
  | seek env name span =>
      cases h
      rfl
  | apply f args span =>
      cases h
      exact congrArg some (enterCall_onto k args span f)
  | give v =>
      cases fs with
      | nil => cases h
      | cons f fs =>
          cases h
          exact congrArg some (resume_onto k v f)
  | raise r =>
      cases fs with
      | nil => cases h
      | cons f fs =>
          cases h
          exact congrArg some (unwind_onto k r f)

end Onto

/-- Without a next step there is an outcome, and nothing waits for it. -/
theorem step_eq_none (h : s.step limit = none) :
    s.frames = [] ∧ ((∃ v, s.control = give v) ∨ ∃ r, s.control = raise r) := by
  obtain ⟨c, fs, d, w⟩ := s
  cases c with
  | give v =>
      cases fs with
      | nil => exact ⟨rfl, .inl ⟨v, rfl⟩⟩
      | cons f fs => cases h
  | raise r =>
      cases fs with
      | nil => exact ⟨rfl, .inr ⟨r, rfl⟩⟩
      | cons f fs => cases h
  | items env done todo use => cases todo <;> cases use <;> cases h
  | pairs env todo entries => rcases todo with _ | ⟨⟨key, value⟩, ps⟩ <;> cases h
  | stmts env todo last => cases todo <;> cases h
  | _ => cases h

theorem not_cons_suffix (f : Frame) (k : List Frame) : ¬f :: k <:+ k := fun h =>
  Nat.lt_irrefl _ h.length_le

/-- A frame that gets its value waits no longer. -/
theorem resume_leaves (v : Value) (f : Frame) (k : List Frame) (d : Nat) (w : World) :
    ¬f :: k <:+ (resume v k d w f).frames := by
  have hne {g : Frame} (hg : f ≠ g) : ¬f :: k <:+ g :: k := fun h =>
    hg (List.cons.inj (h.eq_of_length rfl)).1
  cases f with
  | test env yes no =>
      simp only [resume]
      split
      · exact not_cons_suffix _ k
      · cases no <;> exact not_cons_suffix _ k
  | pairKey env s value todo entries =>
      simp only [resume]
      split
      · exact hne (by simp)
      · exact not_cons_suffix _ k
  | lhs => exact hne (by simp)
  | object => exact hne (by simp)
  | _ => exact not_cons_suffix _ k

theorem unwind_leaves (r : Signal) (f : Frame) (k : List Frame) (d : Nat) (w : World) :
    ¬f :: k <:+ (unwind r k d w f).frames := by
  cases f with
  | call => cases r <;> exact not_cons_suffix _ k
  | _ => exact not_cons_suffix _ k

/-- As long as the frames `k` go on waiting, they make no difference. -/
theorem step_of_onto (h : (s.onto k).step limit = some t) (ht : k <:+ t.frames) :
    ∃ t', s.step limit = some t' ∧ t = t'.onto k := by
  cases hs : s.step limit with
  | some t' =>
      rw [step_onto k hs] at h
      exact ⟨t', rfl, (Option.some.inj h).symm⟩
  | none =>
      obtain ⟨hframes, houtcome⟩ := step_eq_none hs
      obtain ⟨c, fs, d, w⟩ := s
      cases hframes
      cases k with
      | nil => rcases houtcome with ⟨v, rfl⟩ | ⟨r, rfl⟩ <;> cases h
      | cons f k =>
          rcases houtcome with ⟨v, rfl⟩ | ⟨r, rfl⟩ <;> cases h
          · exact absurd ht (resume_leaves v f k d w)
          · exact absurd ht (unwind_leaves r f k d w)

/-- A run during which the frames `k` wait, without them. -/
theorem Path.of_onto (h : Path limit (fun u => k <:+ u.frames) s t) :
    ∀ {s'}, s = s'.onto k → ∃ t', t = t'.onto k ∧ Reaches limit s' t' := by
  induction h with
  | refl s => exact fun {s'} hs => ⟨s', hs, .refl s'⟩
  | step hstep ht _ ih =>
      rintro s' rfl
      obtain ⟨t', hstep', hframes⟩ := step_of_onto hstep ht
      obtain ⟨u', hu, hreach⟩ := ih hframes
      exact ⟨u', hu, .step hstep' trivial hreach⟩

/-! ## Signals on their way -/

/-- On the way to this signal nothing else happens. -/
def Unwinding (r : Signal) (w : World) (u : State) : Prop :=
  u.control = raise r ∧ u.world = w

/-- Of what waits in the same function, all is left. -/
theorem raise_path (r : Signal) (hfs : .call ∉ fs) :
    Path limit (Unwinding r w) ⟨raise r, fs ++ k, d, w⟩ ⟨raise r, k, d, w⟩ := by
  induction fs with
  | nil => exact .refl _
  | cons f fs ih =>
      obtain ⟨hf, hfs⟩ := not_or.mp (mt List.mem_cons.mpr hfs)
      have hunwind : unwind r (fs ++ k) d w f = ⟨raise r, fs ++ k, d, w⟩ := by
        cases f <;> first | rfl | exact absurd rfl hf
      exact .step (congrArg some hunwind) ⟨rfl, rfl⟩ (ih hfs)

theorem eval_eq_of_reaches {d' : Nat} {r : Signal}
    (h : Reaches limit ⟨c, [], d, w⟩ ⟨raise r, [], d', w'⟩) :
    c.eval (applyWithin limit (limit - d)) w = .error r w' := by
  have hend := ended_of_reaches h rfl
  generalize c.eval (applyWithin limit (limit - d)) w = x at hend ⊢
  cases x with
  | ok v w1 => cases hend
  | error r1 w1 =>
      cases hend
      rfl

/-- A value that is returned somewhere in the body of a function is the value of its call. -/
theorem settle_of_reaches {d' : Nat} {v f : Value} {args : List Value} {span : Span}
    (hfs : .call ∉ fs)
    (h : Reaches limit ⟨apply f args span, [], d, w⟩ ⟨raise (.ret v), fs ++ [.call], d', w'⟩) :
    (applyWithin limit (limit - d) f args span).settle w = (v, w') := by
  have hleft : Reaches limit ⟨raise (.ret v), fs ++ [.call], d', w'⟩
      ⟨raise (.ret v), [.call], d', w'⟩ := (raise_path (.ret v) hfs).reaches
  have hreturn : (State.mk (raise (.ret v)) [.call] d' w').step limit =
      some ⟨ofValue v, [], d' - 1, w'⟩ := rfl
  have hhalt : (State.mk (ofValue v) [] (d' - 1) w').step limit = none := by cases v <;> rfl
  have hend : State.ended [] d (applyWithin limit (limit - d) f args span w) =
      ⟨ofValue v, [], d' - 1, w'⟩ :=
    ended_of_reaches (h.trans (hleft.trans (.step hreturn trivial (.refl _)))) hhalt
  have hsettle := (outcome_ended (applyWithin limit (limit - d) f args span) w d).1
  rw [hend] at hsettle
  rw [← hsettle]
  cases v <;> rfl

/-- What follows where the evaluation of `c`, for which the frames `k` wait, has come to `c'`, for
which the frames `fs` wait in addition, and `c'` yields the signal `r`. -/
structure SignalWins (limit : Nat) (k : List Frame) (c : Control) (d : Nat) (w : World)
    (fs : List Frame) (c' : Control) (d' : Nat) (w' : World) (r : Signal) (w'' : World) : Prop where
  /-- The signal comes where all that waited for `c'` still waits. -/
  reaches : Reaches limit ⟨c', fs ++ k, d', w'⟩ ⟨raise r, fs ++ k, d', w''⟩
  /-- Of what waits in the same function, no part is evaluated, bound or written any more. -/
  leaves : ∀ inner outer, fs = inner ++ outer → .call ∉ inner →
    Path limit (Unwinding r w'') ⟨raise r, fs ++ k, d', w''⟩ ⟨raise r, outer ++ k, d', w''⟩
  /-- Every evaluation around `c'` in the same function yields the signal itself. -/
  yields : .call ∉ fs → c.eval (applyWithin limit (limit - d)) w = .error r w''
  /-- The call of that function has the value that was returned. -/
  returns : ∀ v f args span inner, r = .ret v → c = apply f args span → fs = inner ++ [.call] →
    .call ∉ inner → (applyWithin limit (limit - d) f args span).settle w = (v, w'')
  /-- A fault passes the calls, too. -/
  fault : ∀ f, r = .fault f → c.eval (applyWithin limit (limit - d)) w = .error (.fault f) w'' ∧
    ∃ d'', Path limit (Unwinding (.fault f) w'') ⟨raise (.fault f), fs ++ k, d', w''⟩
      ⟨raise (.fault f), k, d'', w''⟩
  /-- A program has the value that was returned outside all calls, or yields the fault. -/
  program : ∀ env p, c = stmts env p .null → d = 0 →
    (∀ v, r = .ret v → .call ∉ fs → Program.run limit env p w = (v, w'')) ∧
      ∀ f, r = .fault f → Program.run limit env p w = (.signal (.fault f), w'')

/-- The first signal that an evaluation comes to wins, whatever the evaluation is and however deep
inside it the signal comes up. -/
theorem first_signal_wins {d' : Nat} {r : Signal}
    (h : Path limit (fun u => k <:+ u.frames) ⟨c, k, d, w⟩ ⟨c', fs ++ k, d', w'⟩)
    (hr : c'.eval (applyWithin limit (limit - d')) w' = .error r w'') :
    SignalWins limit k c d w fs c' d' w' r w'' := by
  have hbase : State.mk c k d w = (State.mk c [] d w).onto k := rfl
  obtain ⟨⟨c1, fs1, d1, w1⟩, heq, hreach⟩ := h.of_onto hbase
  obtain ⟨rfl, hfs, rfl, rfl⟩ := State.mk.inj heq
  obtain rfl := List.append_cancel_right hfs
  -- the signal comes up, whatever waits further out
  have hcomes (outer : List Frame) :
      Reaches limit ⟨c', fs ++ outer, d', w'⟩ ⟨raise r, fs ++ outer, d', w''⟩ := by
    have hend := (control_ends limit d' c' (fs ++ outer) w').reaches
    rwa [hr] at hend
  have hraised : Reaches limit ⟨c, [], d, w⟩ ⟨raise r, fs, d', w''⟩ := by
    have hend := hcomes []
    rw [List.append_nil] at hend
    exact hreach.trans hend
  have hsame (hfs : .call ∉ fs) : Reaches limit ⟨c, [], d, w⟩ ⟨raise r, [], d', w''⟩ := by
    have hleft : Reaches limit ⟨raise r, fs ++ [], d', w''⟩ ⟨raise r, [], d', w''⟩ :=
      (raise_path r hfs).reaches
    rw [List.append_nil] at hleft
    exact hraised.trans hleft
  have hfault (f : Fault) (hf : r = .fault f) :
      ∃ d'', Reaches limit ⟨c, [], d, w⟩ ⟨raise (.fault f), [], d'', w''⟩ := by
    obtain ⟨d'', hleft⟩ := fault_reaches limit f fs d' w''
    exact ⟨d'', (hf ▸ hraised).trans hleft⟩
  refine ⟨hcomes k, ?_, fun hfs => eval_eq_of_reaches (hsame hfs), ?_, ?_, ?_⟩
  · rintro inner outer rfl hinner
    rw [List.append_assoc]
    exact raise_path r hinner
  · rintro v f args span inner rfl rfl rfl hinner
    exact settle_of_reaches hinner hraised
  · intro f hf
    obtain ⟨d'', hend⟩ := hfault f hf
    exact ⟨eval_eq_of_reaches hend, fault_path limit f k fs d' w''⟩
  · rintro env p rfl rfl
    refine ⟨?_, fun f hf => ?_⟩
    · rintro v rfl hfs
      rw [run_of_reaches env p w (hsame hfs) rfl]
      rfl
    · obtain ⟨d'', hend⟩ := hfault f hf
      rw [run_of_reaches env p w hend rfl]
      rfl

/-- In `fn(x) { puts(if (true) { return x; }, puts(1)); 2 }`, a call with 7 returns from the first
argument: neither call of `puts` is made, and the value of the call is 7. -/
theorem first_signal_wins_return_in_argument :
    let s : Span := ⟨0, 0⟩
    let stop : Stmt := .ret (.ident "x" s) s
    let late := Expr.call (.ident "puts" s) [.int 1 s] s
    let body : List Stmt := [.expr (.call (.ident "puts" s)
      [.cond (.bool true s) (.mk [stop] s) none s, late] s) s, .expr (.int 2 s) s]
    let w := World.empty.newEnv.2
    let f := Value.closure ⟨0, [⟨"x", s⟩], .mk body s, World.empty.newEnv.1⟩
    let t := (State.mk (apply f [.int 7] s) [] 0 w).after 3 12
    let inner (e : Env) : List Frame :=
      [.item e [] [late] (.call (.builtin .puts) s), .stmts e [.expr (.int 2 s) s]]
    (∃ e, t.control = stmts e [stop] .null ∧ t.frames = inner e ++ [.call]) ∧
      (applyWithin 3 3 f [.int 7] s).settle w = (.int 7, t.world) ∧ t.world.output = "" := by
  intro s stop late body w f t inner
  let e : Env := ⟨1⟩
  have hpath : Path 3 (fun u => [] <:+ u.frames) ⟨apply f [.int 7] s, [], 0, w⟩
      ⟨stmts e [stop] .null, (inner e ++ [.call]) ++ [], 1, t.world⟩ :=
    (reaches_after 3 12 _).mono fun u _ => u.frames.nil_suffix
  have hreturn : (stmts e [stop] .null).eval (applyWithin 3 2) t.world =
      .error (.ret (.int 7)) t.world := rfl
  have hinner : Frame.call ∉ inner e := by simp [inner]
  exact ⟨⟨e, rfl, rfl⟩,
    (first_signal_wins hpath hreturn).returns (.int 7) f [.int 7] s (inner e) rfl rfl rfl hinner,
    by decide +kernel⟩

end Machine

end Monkey
