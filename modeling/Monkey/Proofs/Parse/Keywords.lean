import Monkey.Proofs.Parse.Attempts
import Monkey.Proofs.Parse.Ending

/-!
# `let` and `return` outside all braces

A statement is attempted at every `let` and every `return` outside all braces, but for those where
an operand was wanted: recovery stops in front of these tokens, unless it starts from one.
-/

namespace Monkey

namespace Cursor

variable {b depth : Nat} {c c' : Cursor} {t : Token} {us vs : List Token}

/-- The token `t` is ahead, the tokens `vs` behind it, inside `b` braces. -/
def Ahead (t : Token) (vs : List Token) (b : Nat) (c : Cursor) : Prop :=
  ∃ us, c.tokens = us ++ t :: vs ∧ (us.map Token.kind).foldl nestingAfter c.nesting = b

namespace Ahead

/-- Either the token is the current one, or it is ahead of the next. -/
theorem cases (h : Ahead t vs b c) : (c.current = t ∧ c.tokens = t :: vs ∧ c.nesting = b) ∨
    (¬c.current.isEof ∧ Ahead t vs b c.advance) := by
  obtain ⟨us, htokens, hb⟩ := h
  have hc : ¬c.current.isEof := fun hc => by
    rw [tokens_of_isEof hc] at htokens
    cases us <;> cases htokens
  have hcons := tokens_eq_cons hc
  cases us with
  | nil => exact .inl ⟨(List.cons.inj (hcons.symm.trans htokens)).1, htokens, hb⟩
  | cons u us =>
      obtain ⟨rfl, htail⟩ := List.cons.inj (hcons.symm.trans htokens)
      exact .inr ⟨hc, us, htail, hb⟩

theorem of_advance (hc : ¬c.current.isEof) (h : Ahead t vs b c.advance) : Ahead t vs b c := by
  obtain ⟨us, htokens, hb⟩ := h
  exact ⟨c.current :: us, by rw [tokens_eq_cons hc, htokens, List.cons_append], hb⟩

theorem report (hc : ¬c.current.isEof) (h : Ahead t vs b c.advance) (e : SyntaxError) :
    Ahead t vs b (c.report e).advance := by
  obtain ⟨us, htokens, hb⟩ := h
  have hc' : ¬(c.report e).current.isEof := hc
  have hcons := (tokens_eq_cons hc').symm.trans ((tokens_report c e).trans (tokens_eq_cons hc))
  exact ⟨us, (List.cons.inj hcons).2.trans htokens, hb⟩

variable (hk : t.kind = .kwLet ∨ t.kind = .kwReturn)
include hk

/-- A trail does not lead onto a `let` or a `return` that is not sheltered. -/
theorem along {b' : Nat} (ht : Trail b' c c') (hb : b ≤ b') (hc : ¬c.current.isEof)
    (h : Ahead t vs b c.advance) : ¬c'.current.isEof ∧ Ahead t vs b c'.advance := by
  induction ht with
  | refl => exact ⟨hc, h⟩
  | step _ hs _ ih =>
      rcases h.cases with ⟨rfl, -, hnesting⟩ | ⟨hc1, h1⟩
      · have := hs hk
        omega
      · exact ih hc1 h1

/-- Nor does recovery pass over it. -/
theorem synchronize (hb : b ≤ depth) (n : Nat) : ∀ c : Cursor, ¬c.current.isEof →
    Ahead t vs b c.advance → Ahead t vs b (c.synchronize depth n) := by
  induction n with
  | zero => exact fun c hc h => h.of_advance hc
  | succ n ih =>
      intro c hc h
      rw [Cursor.synchronize, if_neg hc]
      split
      · exact h
      dsimp only
      split
      · exact h
      rename_i hstop
      rcases h.cases with ⟨rfl, -, hnesting⟩ | ⟨hc1, h1⟩
      · exact absurd ⟨by omega, hk⟩ hstop
      · exact ih c.advance hc1 h1

/-- An attempt that begins in front of it goes no further, unless an operand is wanted there. -/
theorem next (hc : ¬c.current.isEof) (hb : b ≤ c.nesting) (h : Ahead t vs b c.advance) :
    Ahead t vs b c.next ∨
      ∃ d, Parse.statement c = .error ⟨.noOperand t.kind, t.span⟩ d ∧ d.tokens = t :: vs := by
  have hended := Parse.statement_ended hc
  cases hr : Parse.statement c with
  | ok s c' =>
      rw [hr] at hended
      rw [next_of_ok hr]
      exact .inl (along hk hended.2.1 hb hc h).2
  | error e c' =>
      rw [hr] at hended
      have hrecover (hc' : ¬c'.current.isEof) (h' : Ahead t vs b c'.advance) :
          Ahead t vs b c.next := by
        rw [next_of_error hr]
        exact synchronize hk hb c'.left (c'.report e) hc' (h'.report hc' e)
      rcases hended with ht | ⟨d, ht, -, rfl, rfl⟩
      · obtain ⟨hc', h'⟩ := along hk ht hb hc h
        exact .inl (hrecover hc' h')
      · rcases (along hk ht hb hc h).2.cases with ⟨rfl, htokens, -⟩ | ⟨hc', h'⟩
        · exact .inr ⟨d.advance, rfl, htokens⟩
        · exact .inl (hrecover hc' h')

/-- So there will be an attempt that begins at it, or one that wants an operand there. -/
theorem attempted_or_wanted (n : Nat) : ∀ c : Cursor, c.tokens.length ≤ n → Ahead t vs 0 c →
    (∃ a ∈ c.attemptsWithin n, a.tokens = t :: vs) ∨ ∃ a ∈ c.attemptsWithin n, ∃ d,
      Parse.statement a = .error ⟨.noOperand t.kind, t.span⟩ d ∧ d.tokens = t :: vs := by
  induction n with
  | zero =>
      intro c hn h
      rcases h.cases with ⟨-, htokens, -⟩ | ⟨hc, -⟩
      · rw [htokens] at hn
        exact absurd hn (Nat.not_succ_le_zero _)
      · exact absurd (isEof_of_length_le hn) hc
  | succ n ih =>
      intro c hn h
      have hc : ¬c.current.isEof := fun hc => by
        obtain ⟨us, htokens, -⟩ := h
        rw [tokens_of_isEof hc] at htokens
        cases us <;> cases htokens
      rw [attemptsWithin_of_not hc]
      rcases h.cases with ⟨-, htokens, -⟩ | ⟨-, h1⟩
      · exact .inl ⟨c, List.mem_cons_self, htokens⟩
      rcases h1.next hk hc (Nat.zero_le _) with h2 | ⟨d, hr, hd⟩
      · obtain ⟨⟨ts, hts, hcourse⟩, -⟩ := next_course hc
        have hlen := congrArg List.length hcourse.tokens_eq
        have hpos := List.length_pos_iff.mpr hts
        rw [List.length_append] at hlen
        refine (ih c.next (by omega) h2).imp ?_ ?_
        · exact fun ⟨a, ha, htokens⟩ => ⟨a, List.mem_cons_of_mem _ ha, htokens⟩
        · exact fun ⟨a, ha, hrest⟩ => ⟨a, List.mem_cons_of_mem _ ha, hrest⟩
      · exact .inr ⟨c, List.mem_cons_self, d, hr, hd⟩

end Ahead

/-- Of two attempts of a run one begins behind the other. -/
theorem attemptsWithin_ordered (n : Nat) (c : Cursor) : ∀ a ∈ c.attemptsWithin n,
    ∀ a' ∈ c.attemptsWithin n, a = a' ∨ a'.tokens.length ≤ a.next.tokens.length ∨
      a.tokens.length ≤ a'.next.tokens.length := by
  induction n generalizing c with
  | zero => exact fun a ha => absurd ha List.not_mem_nil
  | succ n ih =>
      intro a ha a' ha'
      by_cases hc : c.current.isEof
      · rw [attemptsWithin_of_isEof hc] at ha
        exact absurd ha List.not_mem_nil
      have hrest (x : Cursor) (hx : x ∈ c.next.attemptsWithin n) :
          x.tokens.length ≤ c.next.tokens.length := by
        obtain ⟨⟨us, hus⟩, -⟩ := attemptsWithin_course n c.next x hx
        rw [hus.tokens_eq, List.length_append]
        omega
      rw [attemptsWithin_of_not hc, List.mem_cons] at ha ha'
      rcases ha with rfl | ha <;> rcases ha' with rfl | ha'
      · exact .inl rfl
      · exact .inr (.inl (hrest a' ha'))
      · exact .inr (.inr (hrest a ha))
      · exact ih c.next a ha a' ha'

end Cursor

/-- Outside all braces, a `let` or a `return` is the first token of a statement that is attempted,
except just when another attempt has failed at it for want of an operand. -/
theorem keyword_attempted_iff (s : TokenStream) {before after : List Token} {t : Token}
    (h : Cursor.upToEof (s.items.filterMap Except.toOption) = before ++ t :: after)
    (hk : t.kind = .kwLet ∨ t.kind = .kwReturn) (hnesting : Token.nesting before = 0) :
    (∃ a ∈ (Cursor.ofStream s).attempts, a.tokens = t :: after) ↔
      ¬∃ a ∈ (Cursor.ofStream s).attempts, ∃ d,
        Parse.statement a = .error ⟨.noOperand t.kind, t.span⟩ d ∧ d.tokens = t :: after := by
  constructor
  · rintro ⟨a, ha, htokens⟩ ⟨a', ha', d, hr, hd⟩
    have hc := (Cursor.attemptsWithin_course _ _ a ha).2.1
    have hc' := (Cursor.attemptsWithin_course _ _ a' ha').2.1
    have hcurrent := List.cons.inj ((Cursor.tokens_eq_cons hc).symm.trans htokens)
    have hlen : a.tokens.length = d.tokens.length := by rw [htokens, hd]
    rcases Cursor.attemptsWithin_ordered _ _ a ha a' ha' with rfl | hle | hle
    · have := Parse.length_statement_error (hcurrent.1 ▸ hk) hr
      omega
    · -- the failed attempt begins behind the token, and so does what it reaches
      have hended := Parse.statement_ended hc'
      rw [hr] at hended
      have hback := hended.length_error
      obtain ⟨⟨ts, hts, hcourse⟩, -⟩ := Cursor.next_course hc
      have hnext := congrArg List.length hcourse.tokens_eq
      have hpos := List.length_pos_iff.mpr hts
      rw [List.length_append] at hnext
      omega
    · -- recovery goes on behind the token
      have hd' : ¬d.current.isEof := fun hend => by
        rw [Cursor.tokens_of_isEof hend] at hd
        cases hd
      have hrecover := Cursor.length_recover hd' (.refl d) a'.nesting ⟨.noOperand t.kind, t.span⟩
      rw [← Cursor.next_of_error hr] at hrecover
      omega
  · intro hwanted
    have hahead : Cursor.Ahead t after 0 (Cursor.ofStream s) :=
      ⟨before, (Cursor.tokens_ofStream s).trans h, hnesting⟩
    exact (hahead.attempted_or_wanted hk _ _ (Cursor.length_tokens_le_left _)).resolve_right hwanted

/-- In `let let x = 2;` the first statement fails in front of the second `let`, which is
attempted. -/
theorem keyword_attempted_iff_second_let :
    let before : List Token := [⟨.kwLet, "let", ⟨0, 3⟩⟩]
    let t : Token := ⟨.kwLet, "let", ⟨4, 3⟩⟩
    let after : List Token := [⟨.ident, "x", ⟨8, 1⟩⟩, ⟨.assign, "=", ⟨10, 1⟩⟩,
      ⟨.integer, "2", ⟨12, 1⟩⟩, ⟨.semicolon, ";", ⟨13, 1⟩⟩]
    let s : TokenStream := ⟨(before ++ t :: after).map .ok, ⟨14, 0⟩⟩
    Cursor.upToEof (s.items.filterMap Except.toOption) = before ++ t :: after ∧
      (t.kind = .kwLet ∨ t.kind = .kwReturn) ∧ Token.nesting before = 0 ∧
      (∃ a ∈ (Cursor.ofStream s).attempts, a.tokens = t :: after) ∧
      ((∃ a ∈ (Cursor.ofStream s).attempts, a.tokens = t :: after) ↔
        ¬∃ a ∈ (Cursor.ofStream s).attempts, ∃ d,
          Parse.statement a = .error ⟨.noOperand t.kind, t.span⟩ d ∧ d.tokens = t :: after) := by
  intro before t after s
  have h : Cursor.upToEof (s.items.filterMap Except.toOption) = before ++ t :: after := rfl
  exact ⟨h, .inl rfl, rfl, by decide +kernel, keyword_attempted_iff s h (.inl rfl) rfl⟩

/-- In `1 + let x = 2;` the `let` is taken for an operand, and is not attempted. -/
theorem keyword_lost_as_operand :
    let before : List Token := [⟨.integer, "1", ⟨0, 1⟩⟩, ⟨.plus, "+", ⟨2, 1⟩⟩]
    let t : Token := ⟨.kwLet, "let", ⟨4, 3⟩⟩
    let after : List Token := [⟨.ident, "x", ⟨8, 1⟩⟩, ⟨.assign, "=", ⟨10, 1⟩⟩,
      ⟨.integer, "2", ⟨12, 1⟩⟩, ⟨.semicolon, ";", ⟨13, 1⟩⟩]
    let s : TokenStream := .ofText "1 + let x = 2;"
    Cursor.upToEof (s.items.filterMap Except.toOption) = before ++ t :: after ∧
      t.kind = .kwLet ∧ Token.nesting before = 0 ∧
      ¬∃ a ∈ (Cursor.ofStream s).attempts, a.tokens = t :: after := by
  intro before t after s
  exact ⟨by decide +kernel, rfl, rfl, by decide +kernel⟩

end Monkey
