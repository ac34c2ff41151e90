import Monkey.Proofs.Parse.Accounting

/-!
# Lexical errors are reported

What is no token is passed over by the parser, but not in silence: as the parser reads on to the
end, it comes to each lexical error and reports it.
-/

namespace Monkey

namespace Cursor

variable {c c' : Cursor} {ts : List Token} {I : Cursor → Prop} {e : LexicalError}

/-! ## What a whole program keeps -/

section Keeps

variable (hadvance : ∀ c, I c → I c.advance)

include hadvance

theorem Passes.keeps (hp : Passes c ts c') (h : I c) : I c' := by
  induction hp with
  | refl => exact h
  | step _ _ ih => exact ih (hadvance _ h)

variable (hreport : ∀ c e, I c → I (c.report e))

include hreport

/-- A program is read to its end, by steps and reports. -/
theorem statementsWithin_keeps (n : Nat) : ∀ c : Cursor, c.tokens.length ≤ n → I c →
    I (c.statementsWithin n).2 ∧ (c.statementsWithin n).2.current.isEof := by
  induction n with
  | zero => exact fun c hn h => ⟨h, isEof_of_length_le hn⟩
  | succ n ih =>
      intro c hn h
      by_cases hc : c.current.isEof
      · rw [statementsWithin_of_isEof _ hc]
        exact ⟨h, hc⟩
      have hsound := Parse.statement_sound c
      cases hr : Parse.statement c with
      | ok s c' =>
          rw [hr] at hsound
          obtain ⟨ts, hp, h1, -⟩ := hsound
          have hlen := hp.length_tokens_le
          have hlen' := Parse.length_advance h1
          rw [statementsWithin_of_ok hc hr]
          exact ih _ (by omega) (hadvance _ (hp.keeps hadvance h))
      | error e c' =>
          rw [hr] at hsound
          obtain ⟨⟨ts, hp⟩, -⟩ := hsound
          have hlen := length_recover hc hp c.nesting e
          obtain ⟨us, hq, -⟩ :=
            synchronize_passes c.nesting c'.left (c'.report e) (length_tokens_le_left c')
          rw [statementsWithin_of_error hc hr]
          exact ih _ (by omega) (hq.keeps hadvance (hreport c' e (hp.keeps hadvance h)))

end Keeps

/-! ## Errors on the way -/

section Pull

variable {stop : Span} {items : List Item}

/-- An error ahead is reported when it is passed. -/
theorem mem_pull : ∀ {errors : Array SyntaxError}, .ofLexical e ∈ errors ∨ .error e ∈ items →
    .ofLexical e ∈ (pull stop errors items).2.2 ∨ .error e ∈ (pull stop errors items).2.1 := by
  induction items with
  | nil => exact id
  | cons i items ih =>
      intro errors h
      rw [List.mem_cons] at h
      cases i with
      | ok t =>
          rcases h with h | h | h
          · exact .inl h
          · cases h
          · exact .inr h
      | error f =>
          refine ih ?_
          rcases h with h | h | h
          · exact .inl (Array.mem_push_of_mem _ h)
          · cases h
            exact .inl Array.mem_push_self
          · exact .inr h

theorem pull_subset (errors : Array SyntaxError) : (pull stop errors items).2.1 ⊆ items := by
  induction items generalizing errors with
  | nil => exact List.Subset.refl []
  | cons i items ih =>
      cases i with
      | ok t => exact List.subset_cons_self _ _
      | error f => exact List.subset_cons_of_subset _ (ih _)

theorem pull_isEof (htokens : ∀ t : Token, .ok t ∈ items → ¬t.isEof) (errors : Array SyntaxError)
    (h : (pull stop errors items).1.isEof) : (pull stop errors items).2.1 = [] := by
  induction items generalizing errors with
  | nil => rfl
  | cons i items ih =>
      cases i with
      | ok t => exact absurd h (htokens t List.mem_cons_self)
      | error f => exact ih (fun t ht => htokens t (List.mem_cons_of_mem _ ht)) _ h

end Pull

/-- The error has been reported or lies ahead; and where the end has come, nothing lies ahead. -/
structure Heeds (e : LexicalError) (c : Cursor) : Prop where
  known : .ofLexical e ∈ c.errors ∨ .error e ∈ c.rest
  tokens : ∀ t : Token, .ok t ∈ c.rest → ¬t.isEof
  peek : c.peek.isEof → c.rest = []
  current : c.current.isEof → c.rest = []

theorem Heeds.advance (h : c.Heeds e) : c.advance.Heeds e where
  known := mem_pull h.known
  tokens t ht := h.tokens t (pull_subset _ ht)
  peek := pull_isEof h.tokens _
  current hc := List.eq_nil_of_subset_nil (h.peek hc ▸ pull_subset _)

theorem Heeds.report (h : c.Heeds e) (f : SyntaxError) : (c.report f).Heeds e :=
  ⟨h.known.imp_left (Array.mem_push_of_mem _), h.tokens, h.peek, h.current⟩

theorem ofStream_heeds {s : TokenStream} (htokens : ∀ t : Token, .ok t ∈ s.items → ¬t.isEof)
    (he : .error e ∈ s.items) : (ofStream s).Heeds e := by
  have hrest : ∀ t : Token, .ok t ∈ (pull s.stop #[] s.items).2.1 → ¬t.isEof :=
    fun t ht => htokens t (pull_subset _ ht)
  exact ⟨mem_pull (mem_pull (.inr he)), fun t ht => hrest t (pull_subset _ ht),
    pull_isEof hrest _,
    fun hc => List.eq_nil_of_subset_nil (pull_isEof htokens _ hc ▸ pull_subset _)⟩

end Cursor

/-- Each lexical error is among the errors of the source. -/
theorem mem_parseStream_errors {s : TokenStream} {e : LexicalError}
    (htokens : ∀ t : Token, .ok t ∈ s.items → ¬t.isEof) (he : .error e ∈ s.items) :
    .ofLexical e ∈ (parseStream s).errors := by
  have hstart := Cursor.ofStream_heeds htokens he
  obtain ⟨hlast, heof⟩ := Cursor.statementsWithin_keeps (fun _ h => h.advance)
    (fun _ f h => h.report f) _ _ (Cursor.length_tokens_le_left _) hstart
  refine Array.mem_toList_iff.mpr (hlast.known.resolve_right fun h => ?_)
  rw [hlast.current heof] at h
  cases h

end Monkey
