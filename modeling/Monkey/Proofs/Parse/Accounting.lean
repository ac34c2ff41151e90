import Mathlib.Data.List.TakeWhile
import Monkey.Parse.Recovery
import Monkey.Proofs.Parse.Soundness

/-!
# Every token is accounted for

The tokens of a source fall into stretches: each spells one statement of the program, or is given up
for one of the errors. So nothing outside the grammar is accepted, and nothing is dropped without
being reported.
-/

namespace Monkey

/-! ## Accounts -/

/-- The tokens, which `stop` follows, are cut into stretches: those that are accepted spell the
statements, in order, and those that are discarded have the errors, in order. A discarded stretch
ends with a semicolon, or where a statement begins or the source ends; its error is about a token in
it or the one behind it. -/
inductive Accounted (stop : Token) : List Token → List Stmt → List SyntaxError → Prop
  | done : Accounted stop [] [] []
  | accepted {ts rest : List Token} {s : Stmt} {ss : List Stmt} {es : List SyntaxError} :
      ts ≠ [] → Stmt.SpelledFull true s (ts.map Token.word) → Accounted stop rest ss es →
      Accounted stop (ts ++ rest) (s :: ss) es
  | discarded {ts rest : List Token} {e : SyntaxError} {ss : List Stmt} {es : List SyntaxError} :
      ts ≠ [] → (∃ t ∈ ts ++ [rest.headD stop], e.Blames t) →
      ((∃ t, ts.getLast? = some t ∧ t.kind = .semicolon) ∨
        (rest.headD stop).kind ∈ [.kwLet, .kwReturn, .eof]) →
      Accounted stop rest ss es → Accounted stop (ts ++ rest) ss (e :: es)

/-- Without errors, the tokens spell the program. -/
theorem Accounted.spelled {stop : Token} {ts : List Token} {ss : List Stmt}
    {es : List SyntaxError} (h : Accounted stop ts ss es) (hes : es = []) :
    Stmt.SpelledList true ss (ts.map Token.word) := by
  induction h with
  | done => exact .nil
  | accepted _ hs _ ih =>
      rw [List.map_append]
      exact .cons_full hs (ih hes)
  | discarded => cases hes

/-! ## Places without lexical errors -/

namespace Cursor

variable {c c' : Cursor} {ts : List Token}

/-- Only tokens follow, and once the end has come it stays. -/
structure Clean (c : Cursor) : Prop where
  rest : ∀ i ∈ c.rest, ∃ t : Token, i = .ok t ∧ ¬t.isEof
  current : c.current.isEof → c.current = .eof c.stop ∧ c.peek.isEof
  peek : c.peek.isEof → c.peek = .eof c.stop ∧ c.rest = []

theorem Clean.advance (h : c.Clean) :
    c.advance.Clean ∧ c.advance.errors = c.errors ∧ c.advance.stop = c.stop := by
  cases hr : c.rest with
  | nil =>
      have hadv : c.advance = { c with
          current := c.peek, peek := .eof c.stop, rest := []
          nesting := nestingAfter c.nesting c.current.kind } := by
        simp [Cursor.advance, hr, pull]
      rw [hadv]
      refine ⟨⟨fun i hi => absurd hi List.not_mem_nil, fun hp => ⟨(h.peek hp).1, rfl⟩,
        fun _ => ⟨rfl, rfl⟩⟩, rfl, rfl⟩
  | cons i items =>
      obtain ⟨t, rfl, ht⟩ := h.rest i (hr ▸ List.mem_cons_self)
      have hadv : c.advance = { c with
          current := c.peek, peek := t, rest := items
          nesting := nestingAfter c.nesting c.current.kind } := by
        simp [Cursor.advance, hr, pull]
      rw [hadv]
      refine ⟨⟨fun i hi => h.rest i (hr ▸ List.mem_cons_of_mem _ hi), fun hp => ?_,
        fun hp => absurd hp ht⟩, rfl, rfl⟩
      exact absurd (h.peek hp).2 (by simp [hr])

theorem Passes.clean (hp : Passes c ts c') (h : c.Clean) :
    c'.Clean ∧ c'.errors = c.errors ∧ c'.stop = c.stop := by
  induction hp with
  | refl => exact ⟨h, rfl, rfl⟩
  | step _ _ ih =>
      obtain ⟨h1, he, hs⟩ := h.advance
      obtain ⟨h2, he', hs'⟩ := ih h1
      exact ⟨h2, he'.trans he, hs'.trans hs⟩

theorem Clean.headD_tokens (h : c.Clean) : c.tokens.headD (.eof c.stop) = c.current := by
  by_cases hc : c.current.isEof
  · rw [tokens_of_isEof hc]
    exact (h.current hc).1.symm
  · rw [tokens_eq_cons hc]
    rfl

/-! ## Recovery -/

theorem tokens_report (c : Cursor) (e : SyntaxError) : (c.report e).tokens = c.tokens := rfl

theorem Clean.report (h : c.Clean) (e : SyntaxError) : (c.report e).Clean :=
  ⟨h.rest, h.current, h.peek⟩

/-- Where the parser goes on after an error, the stretch that it has skipped is over. -/
def Resumes (ts : List Token) (c' : Cursor) : Prop :=
  (∃ t, ts.getLast? = some t ∧ t.kind = .semicolon) ∨
    c'.current.kind ∈ [.kwLet, .kwReturn, .eof]

theorem synchronize_passes (depth n : Nat) :
    ∀ c : Cursor, c.tokens.length ≤ n →
      ∃ ts, Passes c ts (c.synchronize depth n) ∧ Resumes ts (c.synchronize depth n) ∧
        (¬c.current.isEof → ts ≠ []) := by
  induction n with
  | zero =>
      intro c hn
      have hc := isEof_of_length_le hn
      have hk : c.current.kind = .eof := of_decide_eq_true hc
      exact ⟨[], .refl c, .inr (by simp [synchronize, hk]), fun h => absurd hc h⟩
  | succ n ih =>
      intro c hn
      rw [synchronize]
      split
      · rename_i hc
        have hk : c.current.kind = .eof := of_decide_eq_true hc
        exact ⟨[], .refl c, .inr (by simp [hk]), fun h => absurd hc h⟩
      rename_i hc
      split
      · rename_i hs
        exact ⟨[c.current], .one hc, .inl ⟨c.current, rfl, hs.1⟩, fun _ => by simp⟩
      dsimp only
      split
      · rename_i hk
        refine ⟨[c.current], .one hc, .inr ?_, fun _ => by simp⟩
        rcases hk.2 with hk | hk <;> simp [hk]
      · have hlen := Parse.length_advance hc
        obtain ⟨ts, hp, hr, _⟩ := ih c.advance (by omega)
        refine ⟨c.current :: ts, .step hc hp, ?_, fun _ => by simp⟩
        refine hr.imp_left fun ⟨t, ht, hk⟩ => ⟨t, ?_, hk⟩
        simp [List.getLast?_cons, ht]

theorem Passes.current_mem (h : Passes c ts c') : c.current ∈ ts ++ [c'.current] := by
  cases h <;> simp

/-- Of the tokens passed and the one after them, the token after the current one is one, unless the
parser has not moved. -/
theorem Passes.peek_mem (h : Passes c ts c') (hts : ts ≠ []) : c.peek ∈ ts ++ [c'.current] := by
  cases h with
  | refl => exact absurd rfl hts
  | step _ h =>
      rw [List.cons_append]
      exact List.mem_cons_of_mem _ h.current_mem

/-- From an error to the place where the parser goes on; the token blamed is on the way. -/
theorem recover_passes (h : c.Clean) (depth : Nat) {e : SyntaxError}
    (he : e.Blames c.current ∨ e.Blames c.peek) :
    ∃ ts, Passes (c.report e) ts (c.recover depth e) ∧ Resumes ts (c.recover depth e) ∧
      (¬c.current.isEof → ts ≠ []) ∧ ∃ t ∈ ts ++ [(c.recover depth e).current], e.Blames t := by
  obtain ⟨ts, hp, hr, hne⟩ :=
    synchronize_passes depth c.left (c.report e) (length_tokens_le_left c)
  refine ⟨ts, hp, hr, hne, ?_⟩
  rcases he with hb | hb
  · exact ⟨_, hp.current_mem, hb⟩
  · by_cases hc : c.current.isEof
    · obtain ⟨hcur, hpeek⟩ := h.current hc
      rw [(h.peek hpeek).1, ← hcur] at hb
      exact ⟨_, hp.current_mem, hb⟩
    · exact ⟨_, hp.peek_mem (hne hc), hb⟩

/-- After an error there are fewer tokens left than in front of the malformed statement. -/
theorem length_recover (hc : ¬c.current.isEof) {c' : Cursor} (hp : Passes c ts c') (depth : Nat)
    (e : SyntaxError) : (c'.recover depth e).tokens.length < c.tokens.length := by
  obtain ⟨us, hq, -, hne⟩ :=
    synchronize_passes depth c'.left (c'.report e) (length_tokens_le_left c')
  have hpassed : ts ++ us ≠ [] := by
    cases hp with
    | refl => exact hne hc
    | step => simp
  have hpos := List.length_pos_iff.mpr hpassed
  rw [hp.tokens_eq, ← tokens_report c' e, hq.tokens_eq, ← List.append_assoc, List.length_append]
  change ((c'.report e).synchronize depth c'.left).tokens.length < _
  omega

/-! ## Programs -/

theorem statementsWithin_of_isEof (n : Nat) (h : c.current.isEof) :
    c.statementsWithin n = ([], c) := by
  cases n with
  | zero => rfl
  | succ n => rw [statementsWithin, if_pos h]

theorem statementsWithin_of_ok {n : Nat} {s : Stmt} {c' : Cursor} (hc : ¬c.current.isEof)
    (h : Parse.statement c = .ok s c') : c.statementsWithin (n + 1) =
      (s :: (c'.advance.statementsWithin n).1, (c'.advance.statementsWithin n).2) := by
  rw [statementsWithin, if_neg hc, EStateM.run, h]

theorem statementsWithin_of_error {n : Nat} {e : SyntaxError} {c' : Cursor} (hc : ¬c.current.isEof)
    (h : Parse.statement c = .error e c') :
    c.statementsWithin (n + 1) = (c'.recover c.nesting e).statementsWithin n := by
  rw [statementsWithin, if_neg hc, EStateM.run, h]

theorem statementsWithin_accounted (n : Nat) :
    ∀ c : Cursor, c.Clean → c.tokens.length ≤ n →
      ∃ es : List SyntaxError, (c.statementsWithin n).2.errors = c.errors ++ es ∧
        Accounted (.eof c.stop) c.tokens (c.statementsWithin n).1 es := by
  induction n with
  | zero =>
      intro c _ hn
      rw [List.length_eq_zero_iff.mp (Nat.le_zero.mp hn)]
      exact ⟨[], by simp [statementsWithin], .done⟩
  | succ n ih =>
      intro c h hn
      rw [statementsWithin]
      split
      · rename_i hc
        rw [tokens_of_isEof hc]
        exact ⟨[], by simp, .done⟩
      rename_i hc
      have hs := Parse.statement_sound c
      split
      · -- the statement is well-formed
        rename_i s c1 hrun
        change Parse.statement c = _ at hrun
        rw [hrun] at hs
        obtain ⟨ts, hp, h1, hspell⟩ := hs
        have hp' := hp.trans (.one h1)
        obtain ⟨hclean, herr, hstop⟩ := hp'.clean h
        have htok := hp'.tokens_eq
        have hlen : c1.advance.tokens.length ≤ n := by
          rw [htok] at hn
          simp only [List.length_append, List.length_singleton] at hn
          omega
        obtain ⟨es, hes, hacc⟩ := ih _ hclean hlen
        refine ⟨es, by rw [hes, herr], ?_⟩
        rw [htok, ← hstop]
        exact .accepted (by simp) (by simpa using hspell) hacc
      · -- the statement is malformed
        rename_i e c1 hrun
        change Parse.statement c = _ at hrun
        rw [hrun] at hs
        obtain ⟨⟨ts, hp⟩, hblame⟩ := hs
        obtain ⟨h1, herr1, hstop1⟩ := hp.clean h
        obtain ⟨us, hq, hresume, hne, t, ht, hb⟩ := recover_passes h1 c.nesting hblame
        obtain ⟨h2, herr2, hstop2⟩ := hq.clean (h1.report e)
        have htok : c.tokens = (ts ++ us) ++ (c1.recover c.nesting e).tokens := by
          rw [hp.tokens_eq, ← tokens_report c1 e, hq.tokens_eq, List.append_assoc]
        have hne' : ts ++ us ≠ [] := by
          cases hp with
          | refl => exact hne hc
          | step => simp
        have hlen : (c1.recover c.nesting e).tokens.length ≤ n := by
          have := List.length_pos_iff.mpr hne'
          rw [htok, List.length_append] at hn
          omega
        obtain ⟨es, hes, hacc⟩ := ih _ h2 hlen
        have hhead := h2.headD_tokens
        have hstop : (c1.recover c.nesting e).stop = c.stop := hstop2.trans hstop1
        rw [hstop] at hacc hhead
        refine ⟨e :: es, ?_, ?_⟩
        · rw [hes, herr2]
          simp [report, herr1]
        · rw [htok]
          refine .discarded hne' ⟨t, ?_, hb⟩ ?_ hacc
          · rw [hhead, List.append_assoc]
            exact List.mem_append_right _ ht
          · rw [hhead]
            refine hresume.imp_left fun ⟨t, ht, hk⟩ => ⟨t, ?_, hk⟩
            rw [List.getLast?_append, ht]
            rfl

theorem ofStream_of_tokens {ts : List Token} (stop : Span) (h : ∀ t ∈ ts, ¬t.isEof) :
    (ofStream ⟨ts.map .ok, stop⟩).Clean ∧ (ofStream ⟨ts.map .ok, stop⟩).tokens = ts ∧
      (ofStream ⟨ts.map .ok, stop⟩).errors = #[] ∧ (ofStream ⟨ts.map .ok, stop⟩).stop = stop := by
  have hok : ∀ ts : List Token,
      (ts.map (Except.ok (ε := LexicalError))).filterMap Except.toOption = ts := by
    intro ts
    induction ts with
    | nil => rfl
    | cons t ts ih => simp [Except.toOption, ih]
  rcases ts with _ | ⟨t, _ | ⟨u, ts⟩⟩
  · exact ⟨⟨fun i hi => absurd hi List.not_mem_nil, fun _ => ⟨rfl, rfl⟩, fun _ => ⟨rfl, rfl⟩⟩,
      rfl, rfl, rfl⟩
  · have ht := h t List.mem_cons_self
    refine ⟨⟨fun i hi => absurd hi List.not_mem_nil, fun hc => absurd hc ht,
      fun _ => ⟨rfl, rfl⟩⟩, ?_, rfl, rfl⟩
    exact upToEof_of_not ht _
  · have ht := h t List.mem_cons_self
    have hu := h u (List.mem_cons_of_mem _ List.mem_cons_self)
    have hts : ∀ v ∈ ts, ¬v.isEof := fun v hv =>
      h v (List.mem_cons_of_mem _ (List.mem_cons_of_mem _ hv))
    refine ⟨⟨fun i hi => ?_, fun hc => absurd hc ht, fun hc => absurd hc hu⟩, ?_, rfl, rfl⟩
    · obtain ⟨v, hv, rfl⟩ := List.mem_map.mp hi
      exact ⟨v, rfl, hts v hv⟩
    · change upToEof (t :: u :: (ts.map Except.ok).filterMap Except.toOption) = _
      rw [upToEof_of_not ht, upToEof_of_not hu, hok]
      congr 2
      exact List.takeWhile_eq_self_iff.mpr fun v hv => by simpa using hts v hv

end Cursor

theorem parseStream_errors (s : TokenStream) : (parseStream s).errors =
    ((Cursor.ofStream s).statementsWithin (Cursor.ofStream s).left).2.errors.toList := rfl

/-- Every token of a source without lexical errors belongs to a statement that it helps to spell, or
to a stretch given up for one of the errors; without errors the tokens spell the program. -/
theorem parseStream_accounted (ts : List Token) (stop : Span) (h : ∀ t ∈ ts, ¬t.isEof) :
    Accounted (.eof stop) ts (parseStream ⟨ts.map .ok, stop⟩).program
        (parseStream ⟨ts.map .ok, stop⟩).errors ∧
      ((parseStream ⟨ts.map .ok, stop⟩).errors = [] →
        Stmt.SpelledList true (parseStream ⟨ts.map .ok, stop⟩).program (ts.map Token.word)) := by
  obtain ⟨hclean, htokens, herrors, hstop⟩ := Cursor.ofStream_of_tokens stop h
  obtain ⟨es, hes, hacc⟩ := Cursor.statementsWithin_accounted _ _ hclean
    (Cursor.length_tokens_le_left _)
  rw [htokens, hstop] at hacc
  have herr : (parseStream ⟨ts.map .ok, stop⟩).errors = es := by
    rw [parseStream_errors, hes, herrors]
    simp
  rw [herr]
  exact ⟨hacc, hacc.spelled⟩

/-- The tokens of `let 5; y; )`: a stretch given up at its semicolon, a statement, and a stretch
given up at the end. -/
theorem parseStream_accounted_two_errors :
    let ts : List Token := [⟨.kwLet, "let", ⟨0, 3⟩⟩, ⟨.integer, "5", ⟨4, 1⟩⟩,
      ⟨.semicolon, ";", ⟨5, 1⟩⟩, ⟨.ident, "y", ⟨7, 1⟩⟩, ⟨.semicolon, ";", ⟨8, 1⟩⟩,
      ⟨.rightParen, ")", ⟨10, 1⟩⟩]
    let parsed := parseStream ⟨ts.map .ok, ⟨11, 0⟩⟩
    (∀ t ∈ ts, ¬t.isEof) ∧ (parsed.program.length = 1 ∧ parsed.errors.length = 2) ∧
      Accounted (.eof ⟨11, 0⟩) ts parsed.program parsed.errors := by
  intro ts parsed
  have h : ∀ t ∈ ts, ¬t.isEof := by decide
  exact ⟨h, by decide +kernel, (parseStream_accounted ts ⟨11, 0⟩ h).1⟩

end Monkey
