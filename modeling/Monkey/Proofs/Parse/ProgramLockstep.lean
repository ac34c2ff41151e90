import Monkey.Proofs.Parse.Accounting
import Monkey.Proofs.Parse.Lockstep

/-!
# Programs in lockstep

Where related places stay related whatever the current token is, the parser goes on after an error
at related places, and whole programs are read alike.
-/

namespace Monkey.Cursor

open Parse (Agree Simulation)

variable {ρ : Span → Span → Prop} {R : Cursor → Cursor → Prop} {c d : Cursor} {e f : SyntaxError}

/-- Related places stay related, also behind a statement and after an error. -/
structure TotalSimulation (ρ : Span → Span → Prop) (R : Cursor → Cursor → Prop) : Prop
    extends Simulation ρ R where
  step {c d : Cursor} : R c d → R c.advance d.advance
  nesting {c d : Cursor} : R c d → c.nesting = d.nesting
  report {c d : Cursor} {e f : SyntaxError} : e.Like ρ f → R c d → R (c.report e) (d.report f)

/-! ## Recovery -/

theorem synchronize_agree (hS : TotalSimulation ρ R) (depth n : Nat) :
    ∀ {m : Nat} {c d : Cursor}, n ≤ m → c.tokens.length ≤ n → R c d →
      R (c.synchronize depth n) (d.synchronize depth m) := by
  induction n with
  | zero =>
      intro m c d _ hn h
      have heof : d.current.isEof := by
        simpa [Token.isEof, ← (hS.current h).kind] using Parse.current_of_length_le hn
      cases m with
      | zero => exact h
      | succ m =>
          rw [synchronize, synchronize, if_pos heof]
          exact h
  | succ n ih =>
      intro m c d hm hn h
      obtain ⟨k, rfl⟩ := Nat.exists_eq_add_of_lt hm
      have hkind := (hS.current h).kind
      have hkind' := (hS.current (hS.step h)).kind
      have hnest := hS.nesting h
      have hnest' := hS.nesting (hS.step h)
      rw [synchronize, synchronize]
      simp only [Token.isEof, ← hkind, ← hkind', ← hnest, ← hnest']
      split
      · exact h
      rename_i hc
      split
      · exact hS.step h
      split
      · exact hS.step h
      · have hlen := Parse.length_advance hc
        exact ih (by omega) (by omega) (hS.step h)

theorem recover_agree (hS : TotalSimulation ρ R) (depth : Nat) (he : e.Like ρ f) (h : R c d) :
    R (c.recover depth e) (d.recover depth f) :=
  synchronize_agree hS depth c.left (hS.left h) c.length_tokens_le_left (hS.report he h)

/-! ## Programs -/

theorem statementsWithin_agree (hS : TotalSimulation ρ R) (n : Nat) :
    ∀ {m : Nat} {c d : Cursor}, n ≤ m → c.tokens.length ≤ n → R c d →
      Stmt.LikeAll ρ (c.statementsWithin n).1 (d.statementsWithin m).1 ∧
        R (c.statementsWithin n).2 (d.statementsWithin m).2 := by
  induction n with
  | zero =>
      intro m c d _ hn h
      have hkind : d.current.kind = .eof := by
        rw [← (hS.current h).kind, Parse.current_of_length_le hn]
      rw [statementsWithin_of_isEof m (by simp [Token.isEof, hkind])]
      exact ⟨.nil, h⟩
  | succ n ih =>
      intro m c d hm hn h
      obtain ⟨k, rfl⟩ := Nat.exists_eq_add_of_lt hm
      have hkind := (hS.current h).kind
      by_cases hc : c.current.isEof
      · have hd : d.current.isEof := by simpa [Token.isEof, ← hkind] using hc
        rw [statementsWithin_of_isEof _ hc, statementsWithin_of_isEof _ hd]
        exact ⟨.nil, h⟩
      have hd : ¬d.current.isEof := by simpa [Token.isEof, ← hkind] using hc
      have hsound := Parse.statement_sound c
      have hagree := Parse.statement_agree hS.toSimulation h
      cases hr : Parse.statement c with
      | ok s c' =>
          rw [hr] at hsound hagree
          obtain ⟨ts, hp, h1, -⟩ := hsound
          obtain ⟨s', d', hr', hs, h'⟩ := hagree.of_ok
          have hlen := hp.length_tokens_le
          have hlen' := Parse.length_advance h1
          obtain ⟨hss, hlast⟩ := ih (m := n + k) (by omega) (by omega) (hS.step h')
          rw [statementsWithin_of_ok hc hr, statementsWithin_of_ok hd hr']
          exact ⟨.cons hs hss, hlast⟩
      | error e c' =>
          rw [hr] at hsound hagree
          obtain ⟨⟨ts, hp⟩, -⟩ := hsound
          obtain ⟨f, d', hr', he, h'⟩ := hagree.of_error
          have hlen := length_recover hc hp c.nesting e
          rw [statementsWithin_of_error hc hr, statementsWithin_of_error hd hr', ← hS.nesting h]
          exact ih (by omega) (by omega) (recover_agree hS c.nesting he h')

/-- From related places, programs that are alike are read, and the places reached are related. -/
theorem program_agree (hS : TotalSimulation ρ R) (h : R c d) :
    Stmt.LikeAll ρ c.program.1 d.program.1 ∧ R c.program.2 d.program.2 :=
  statementsWithin_agree hS c.left (hS.left h) c.length_tokens_le_left h

end Monkey.Cursor
