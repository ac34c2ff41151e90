import Monkey.Proofs.Parse.Balance
import Monkey.Proofs.Parse.Legality
import Monkey.Proofs.Parse.Locality

/-!
# Attempts

A program is read attempt by attempt. An attempt begins outside all braces, whatever went wrong
before it: what a malformed statement leaves open is passed over before the next attempt.
-/

namespace Monkey

namespace Cursor

variable {a c c' c'' : Cursor} {ts us : List Token} {s : Stmt} {e : SyntaxError} {n : Nat}

/-! ## The attempts of a run -/

/-- The place of the next attempt, behind the statement that begins here or what is given up of
it. -/
def next (c : Cursor) : Cursor :=
  match Parse.statement c with
  | .ok _ c' => c'.advance
  | .error e c' => c'.recover c.nesting e

/-- The statement that begins here, if it is well-formed. -/
def statement? (c : Cursor) : Option Stmt :=
  match Parse.statement c with
  | .ok s _ => some s
  | .error _ _ => none

/-- The places of the next `n` attempts. -/
def attemptsWithin : Nat → Cursor → List Cursor
  | 0, _ => []
  | n + 1, c => if c.current.isEof then [] else c :: c.next.attemptsWithin n

/-- The places where a statement is attempted, up to the end. -/
def attempts (c : Cursor) : List Cursor :=
  c.attemptsWithin c.left

theorem next_of_ok (h : Parse.statement c = .ok s c') : c.next = c'.advance := by
  rw [next, h]

theorem next_of_error (h : Parse.statement c = .error e c') : c.next = c'.recover c.nesting e := by
  rw [next, h]

theorem statement?_of_ok (h : Parse.statement c = .ok s c') : c.statement? = some s := by
  rw [statement?, h]

theorem statement?_of_error (h : Parse.statement c = .error e c') : c.statement? = none := by
  rw [statement?, h]

theorem attemptsWithin_of_not (hc : ¬c.current.isEof) :
    c.attemptsWithin (n + 1) = c :: c.next.attemptsWithin n := by
  rw [attemptsWithin, if_neg hc]

theorem attemptsWithin_of_isEof (hc : c.current.isEof) : c.attemptsWithin n = [] := by
  cases n with
  | zero => rfl
  | succ n => rw [attemptsWithin, if_pos hc]

/-- A run makes the statements of those attempts that succeed, and ends where the last one leaves
it. -/
theorem statementsWithin_attempts (n : Nat) (c : Cursor) :
    c.statementsWithin n = ((c.attemptsWithin n).filterMap statement?,
      next^[(c.attemptsWithin n).length] c) := by
  induction n generalizing c with
  | zero => rfl
  | succ n ih =>
      by_cases hc : c.current.isEof
      · rw [attemptsWithin_of_isEof hc, statementsWithin_of_isEof _ hc]
        rfl
      rw [attemptsWithin_of_not hc, List.length_cons, Function.iterate_succ_apply]
      cases hr : Parse.statement c with
      | ok s c' =>
          rw [statementsWithin_of_ok hc hr, List.filterMap_cons_some (statement?_of_ok hr),
            next_of_ok hr, ih]
      | error e c' =>
          rw [statementsWithin_of_error hc hr, List.filterMap_cons_none (statement?_of_error hr),
            next_of_error hr, ih]

/-- A run keeps what each attempt keeps. -/
theorem statementsWithin_next {I : Cursor → Prop}
    (hnext : ∀ c : Cursor, ¬c.current.isEof → I c → I c.next) (n : Nat) :
    ∀ c : Cursor, I c → I (c.statementsWithin n).2 := by
  induction n with
  | zero => exact fun c h => h
  | succ n ih =>
      intro c h
      by_cases hc : c.current.isEof
      · rwa [statementsWithin_of_isEof _ hc]
      have h' := ih _ (hnext c hc h)
      cases hr : Parse.statement c with
      | ok x c' =>
          rw [statementsWithin_of_ok hc hr]
          rwa [next_of_ok hr] at h'
      | error e c' =>
          rw [statementsWithin_of_error hc hr]
          rwa [next_of_error hr] at h'

/-! ## From one attempt to the next -/

/-- One place lies behind another, and these tokens lie between them; errors may have been added on
the way. -/
inductive Course : Cursor → List Token → Cursor → Prop
  | refl (c : Cursor) : Course c [] c
  | step {c c' : Cursor} {ts : List Token} : ¬c.current.isEof → Course c.advance ts c' →
      Course c (c.current :: ts) c'
  | report {c c' : Cursor} {ts : List Token} (e : SyntaxError) : Course (c.report e) ts c' →
      Course c ts c'

theorem Passes.course (h : Passes c ts c') : Course c ts c' := by
  induction h with
  | refl => exact .refl _
  | step hc _ ih => exact .step hc ih

namespace Course

theorem trans (h : Course c ts c') (h' : Course c' us c'') : Course c (ts ++ us) c'' := by
  induction h with
  | refl => exact h'
  | step hc _ ih => exact .step hc (ih h')
  | report e _ ih => exact .report e (ih h')

theorem tokens_eq (h : Course c ts c') : c.tokens = ts ++ c'.tokens := by
  induction h with
  | refl => rfl
  | step hc _ ih => rw [tokens_eq_cons hc, ih, List.cons_append]
  | report e _ ih => rw [← tokens_report _ e, ih]

theorem clean (h : Course c ts c') (hc : c.Clean) : c'.Clean := by
  induction h with
  | refl => exact hc
  | step _ _ ih => exact ih hc.advance.1
  | report e _ ih => exact ih (hc.report e)

theorem nesting (h : Course c ts c') :
    c'.nesting = (ts.map Token.kind).foldl nestingAfter c.nesting := by
  induction h with
  | refl => rfl
  | step _ _ ih => exact ih
  | report _ _ ih => exact ih

end Course

/-- Recovery does not stop inside a brace that the malformed statement has left open. -/
theorem nesting_synchronize (depth n : Nat) : ∀ c : Cursor, c.tokens.length ≤ n →
    ¬(c.synchronize depth n).current.isEof → (c.synchronize depth n).nesting ≤ depth := by
  induction n with
  | zero => exact fun c hn hend => absurd (isEof_of_length_le hn) hend
  | succ n ih =>
      intro c hn
      rw [synchronize]
      split
      · rename_i hc
        exact fun hend => absurd hc hend
      rename_i hc
      split
      · rename_i hs
        change _ → nestingAfter c.nesting c.current.kind ≤ depth
        rw [hs.1]
        exact fun _ => hs.2
      dsimp only
      split
      · rename_i hk
        exact fun _ => hk.1
      · have hlen := Parse.length_advance hc
        exact ih c.advance (by omega)

/-- One attempt uses up a token at least, and leaves no brace open. -/
theorem next_course (hc : ¬c.current.isEof) :
    (∃ ts, ts ≠ [] ∧ Course c ts c.next) ∧
      (¬c.next.current.isEof → c.next.nesting ≤ c.nesting) := by
  have hsound := Parse.statement_sound c
  cases hr : Parse.statement c with
  | ok s c' =>
      rw [hr] at hsound
      obtain ⟨ts, hp, hc', hs⟩ := hsound
      rw [next_of_ok hr]
      exact ⟨⟨_, by simp, (hp.trans (.one hc')).course⟩,
        fun _ => Nat.le_of_eq (hp.nesting_advance hs.bracketed.balanced)⟩
  | error e c' =>
      rw [hr] at hsound
      obtain ⟨⟨ts, hp⟩, -⟩ := hsound
      obtain ⟨us, hq, -, -⟩ :=
        synchronize_passes c.nesting c'.left (c'.report e) (length_tokens_le_left c')
      have hcourse : Course c (ts ++ us) c.next := by
        rw [next_of_error hr]
        exact hp.course.trans (.report e hq.course)
      refine ⟨⟨_, fun hnil => ?_, hcourse⟩, ?_⟩
      · have hlen := length_recover hc hp c.nesting e
        rw [← next_of_error hr, hcourse.tokens_eq, hnil] at hlen
        exact Nat.lt_irrefl _ hlen
      · rw [next_of_error hr]
        exact nesting_synchronize c.nesting c'.left (c'.report e) (length_tokens_le_left c')

/-- Every attempt of a run begins at a token, with no more braces open than where the run began. -/
theorem attemptsWithin_course (n : Nat) (c : Cursor) : ∀ a ∈ c.attemptsWithin n,
    (∃ us, Course c us a) ∧ ¬a.current.isEof ∧ a.nesting ≤ c.nesting := by
  induction n generalizing c with
  | zero => exact fun a ha => absurd ha List.not_mem_nil
  | succ n ih =>
      intro a ha
      by_cases hc : c.current.isEof
      · rw [attemptsWithin_of_isEof hc] at ha
        exact absurd ha List.not_mem_nil
      rw [attemptsWithin_of_not hc] at ha
      rcases List.mem_cons.mp ha with rfl | ha
      · exact ⟨⟨[], .refl a⟩, hc, Nat.le_refl _⟩
      obtain ⟨⟨us, hus⟩, hend, hnesting⟩ := ih c.next a ha
      obtain ⟨⟨ts, -, hts⟩, hle⟩ := next_course hc
      refine ⟨⟨ts ++ us, hts.trans hus⟩, hend, ?_⟩
      by_cases hn : c.next.current.isEof
      · rw [attemptsWithin_of_isEof hn] at ha
        exact absurd ha List.not_mem_nil
      · exact Nat.le_trans hnesting (hle hn)

end Cursor

/-- The statements of a program are those that are attempted with success. -/
theorem program_eq_attempts (s : TokenStream) :
    (parseStream s).program = (Cursor.ofStream s).attempts.filterMap Cursor.statement? :=
  congrArg Prod.fst (Cursor.statementsWithin_attempts (Cursor.ofStream s).left (Cursor.ofStream s))

/-- A statement is attempted outside all braces only: in front of its first token as many braces are
closed as opened, where one closed too often is not counted. -/
theorem parseStream_attempts (s : TokenStream) :
    (parseStream s).program = (Cursor.ofStream s).attempts.filterMap Cursor.statement? ∧
      ∀ a ∈ (Cursor.ofStream s).attempts, ∃ before after : List Token,
        Cursor.upToEof (s.items.filterMap Except.toOption) = before ++ a.current :: after ∧
          a.tokens = a.current :: after ∧ Token.nesting before = 0 := by
  refine ⟨program_eq_attempts s, fun a ha => ?_⟩
  obtain ⟨⟨us, hus⟩, hend, hnesting⟩ := Cursor.attemptsWithin_course _ _ a ha
  have hzero : a.nesting = 0 := Nat.le_zero.mp hnesting
  have hcons := Cursor.tokens_eq_cons hend
  refine ⟨us, a.advance.tokens, ?_, hcons, ?_⟩
  · rw [← Cursor.tokens_ofStream, hus.tokens_eq, hcons]
  · exact hus.nesting.symm.trans hzero

end Monkey
