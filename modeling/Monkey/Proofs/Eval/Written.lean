import Monkey.Proofs.Eval.Machine

/-!
# What is written on the way

The calls of `puts` are the only steps of a run that write, and each writes its arguments. So what
has been written at a place of a run is what the calls up to there wrote, in their order.
-/

namespace Monkey

namespace Machine

open Control

variable {limit : Nat} {P : State → Prop} {s t u : State}

/-- The next step is a call of `puts`. -/
def State.Putting (s : State) (args : List Value) : Prop :=
  ∃ span, s.control = apply (.builtin .puts) args span

theorem written_of_ne_puts {b : Builtin} (h : b ≠ .puts) (args : List Value) :
    b.written args = "" := by
  cases b <;> first | rfl | exact absurd rfl h

theorem bindAll_output (env : Env) (ps : List Ident) : ∀ (vs : List Value) (w : World),
    (bindAll env ps vs w).output = w.output := by
  induction ps with
  | nil => exact fun _ _ => rfl
  | cons p ps ih =>
      intro vs w
      cases vs with
      | nil => rfl
      | cons v vs => exact ih vs _

theorem enterCall_output {f : Value} (hf : f ≠ .builtin .puts) (args : List Value) (span : Span)
    (k : List Frame) (d : Nat) (w : World) :
    (enterCall limit args span k d w f).world.output = w.output := by
  cases f with
  | builtin b =>
      have hb : b.written args = "" := written_of_ne_puts (fun h => hf (h ▸ rfl)) args
      exact (congrArg (w.output ++ ·) hb).trans String.append_empty
  | closure c =>
      simp only [enterCall]
      split
      · split
        · rfl
        · exact bindAll_output _ _ _ _
      · rfl
  | _ => rfl

theorem resume_output (v : Value) (k : List Frame) (d : Nat) (w : World) (f : Frame) :
    (resume v k d w f).world.output = w.output := by
  cases f with
  | test env yes no =>
      simp only [resume]
      split
      · rfl
      · cases no <;> rfl
  | pairKey env span value todo entries =>
      simp only [resume]
      split <;> rfl
  | _ => rfl

theorem unwind_output (r : Signal) (k : List Frame) (d : Nat) (w : World) (f : Frame) :
    (unwind r k d w f).world.output = w.output := by
  cases f with
  | call => cases r <;> rfl
  | _ => rfl

theorem step_output_of_putting {args : List Value} (hs : s.Putting args)
    (h : s.step limit = some t) : t.world.output = s.world.output ++ Builtin.puts.written args := by
  obtain ⟨c, k, d, w⟩ := s
  obtain ⟨span, rfl⟩ : ∃ span, c = apply (.builtin .puts) args span := hs
  cases h
  rfl

theorem step_output_of_not_putting (hs : ∀ args, ¬s.Putting args) (h : s.step limit = some t) :
    t.world.output = s.world.output := by
  obtain ⟨c, k, d, w⟩ := s
  cases c with
  | expr env e => cases e <;> cases h <;> rfl
  | items env done todo use => cases todo <;> cases use <;> cases h <;> rfl
  | pairs env todo entries => rcases todo with _ | ⟨⟨key, value⟩, ps⟩ <;> cases h <;> rfl
  | stmt env st => cases st <;> cases h <;> rfl
  | stmts env todo last => cases todo <;> cases h <;> rfl
  | seek env name span => cases h; rfl
  | apply f args span =>
      have hf : f ≠ .builtin .puts := by
        rintro rfl
        exact hs args ⟨span, rfl⟩
      exact Option.some.inj h ▸ enterCall_output hf args span k d w
  | give v =>
      cases k with
      | nil => cases h
      | cons f k => exact Option.some.inj h ▸ resume_output v k d w f
  | raise r =>
      cases k with
      | nil => cases h
      | cons f k => exact Option.some.inj h ▸ unwind_output r k d w f

/-- A run on which `puts` is called with these arguments, call after call. -/
inductive Puts (limit : Nat) : State → List (List Value) → State → Prop
  | refl (s : State) : Puts limit s [] s
  | call {s t u : State} {args : List Value} {calls : List (List Value)} : s.Putting args →
      s.step limit = some t → Puts limit t calls u → Puts limit s (args :: calls) u
  | other {s t u : State} {calls : List (List Value)} : (∀ args, ¬s.Putting args) →
      s.step limit = some t → Puts limit t calls u → Puts limit s calls u

theorem Path.exists_puts (h : Path limit P s t) : ∃ calls, Puts limit s calls t := by
  induction h with
  | refl s => exact ⟨[], .refl s⟩
  | @step s _ _ hs _ _ ih =>
      obtain ⟨calls, hcalls⟩ := ih
      by_cases hput : ∃ args, s.Putting args
      · obtain ⟨args, hput⟩ := hput
        exact ⟨args :: calls, .call hput hs hcalls⟩
      · exact ⟨calls, .other (fun args hargs => hput ⟨args, hargs⟩) hs hcalls⟩

theorem Puts.output_eq {calls : List (List Value)} (h : Puts limit s calls t) :
    t.world.output = s.world.output ++ String.join (calls.map Builtin.puts.written) := by
  induction h with
  | refl s => exact String.append_empty.symm
  | call hput hs _ ih =>
      rw [ih, step_output_of_putting hput hs, List.map_cons, String.join_cons, String.append_assoc]
  | other hput hs _ ih => rw [ih, step_output_of_not_putting hput hs]

end Machine

end Monkey
