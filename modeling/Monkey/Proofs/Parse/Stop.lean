import Monkey.Proofs.Parse.Loops

/-!
# Where the parser stops

The parser takes the tokens up to the first end, that end, and one token more, which it has to look
at; and its recursion and all of its loops come to an end.
-/

namespace Monkey

/-- The same stream with `k` more ends behind it: what follows the end of a stream is its end. -/
def TokenStream.padded (s : TokenStream) (k : Nat) : TokenStream :=
  { s with items := s.items ++ List.replicate k (.ok (.eof s.stop)) }

/-- The place at the first end of a stream. What has been taken from the stream are the `n` tokens
in front of that end, the end itself and the token after it. -/
def TokenStream.EndsAt (s : TokenStream) (n : Nat) (c : Cursor) : Prop :=
  c.current.isEof ∧ ∃ pulled, s.items = pulled ++ c.rest ∧
    pulled.filterMap Except.toOption =
      Cursor.upToEof (s.items.filterMap Except.toOption) ++ [c.current, c.peek] ∧
    (pulled.filterMap Except.toOption).length = n + 2

namespace Cursor

variable {c c' d : Cursor} {ts before : List Token} {items : List Item} {stop : Span}
  {errors : Array SyntaxError} {s : TokenStream}

/-! ## Ends behind the end -/

theorem pull_padded (stop : Span) (k : Nat) (items : List Item) (errors : Array SyntaxError) :
    ∃ j, pull stop errors (items ++ List.replicate k (.ok (.eof stop))) =
      ((pull stop errors items).1, (pull stop errors items).2.1 ++
        List.replicate j (.ok (.eof stop)), (pull stop errors items).2.2) := by
  induction items generalizing errors with
  | nil =>
      cases k with
      | zero => exact ⟨0, rfl⟩
      | succ k => exact ⟨k, rfl⟩
  | cons i items ih =>
      cases i with
      | ok t => exact ⟨k, rfl⟩
      | error e => exact ih _

/-- The second place has some more ends behind it. -/
def Padded (c d : Cursor) : Prop :=
  ∃ k, d = { c with rest := c.rest ++ List.replicate k (.ok (.eof c.stop)) }

theorem Padded.advance (h : Padded c d) : Padded c.advance d.advance := by
  obtain ⟨k, rfl⟩ := h
  obtain ⟨j, hj⟩ := pull_padded c.stop k c.rest c.errors
  refine ⟨j, ?_⟩
  simp only [Cursor.advance, hj]

theorem padded_simulation : TotalSimulation Eq Padded where
  merge := by
    rintro a b _ _ rfl rfl
    rfl
  left := by
    rintro c _ ⟨k, rfl⟩
    simp only [left, List.length_append]
    omega
  current := by
    rintro c _ ⟨k, rfl⟩
    exact .of_eq rfl
  peek := by
    rintro c _ ⟨k, rfl⟩ _
    exact .of_eq rfl
  advance h _ := h.advance
  step h := h.advance
  nesting := by
    rintro c _ ⟨k, rfl⟩
    rfl
  report := by
    rintro c _ e f he ⟨k, rfl⟩
    exact ⟨k, by rw [he.eq]; rfl⟩

theorem padded_ofStream (s : TokenStream) (k : Nat) :
    Padded (ofStream s) (ofStream (s.padded k)) := by
  obtain ⟨j, hj⟩ := pull_padded s.stop k s.items #[]
  obtain ⟨l, hl⟩ := pull_padded s.stop j (pull s.stop #[] s.items).2.1
    (pull s.stop #[] s.items).2.2
  refine ⟨l, ?_⟩
  simp only [ofStream, TokenStream.padded, hj, hl]

/-! ## What has been pulled -/

theorem pull_split (stop : Span) (h : items.filterMap Except.toOption ≠ [])
    (errors : Array SyntaxError) :
    ∃ skipped, items = skipped ++ (pull stop errors items).2.1 ∧
      skipped.filterMap Except.toOption = [(pull stop errors items).1] := by
  induction items generalizing errors with
  | nil => exact absurd rfl h
  | cons i items ih =>
      cases i with
      | ok t => exact ⟨[.ok t], rfl, rfl⟩
      | error e =>
          obtain ⟨skipped, hitems, htoken⟩ := ih h (errors.push (.ofLexical e))
          exact ⟨.error e :: skipped, congrArg _ hitems, htoken⟩

/-- Of the items, those with the tokens `before` and the two in sight have been pulled. -/
def Pulled (items : List Item) (before : List Token) (c : Cursor) : Prop :=
  ∃ pulled, items = pulled ++ c.rest ∧
    pulled.filterMap Except.toOption = before ++ [c.current, c.peek]

theorem pulled_ofStream (h : 2 ≤ (s.items.filterMap Except.toOption).length) :
    Pulled s.items [] (ofStream s) := by
  have hone : s.items.filterMap Except.toOption ≠ [] := List.ne_nil_of_length_pos (by omega)
  obtain ⟨xs, hxs, hx⟩ := pull_split s.stop hone #[]
  have htwo : (pull s.stop #[] s.items).2.1.filterMap Except.toOption ≠ [] := by
    intro hnil
    rw [hxs, List.filterMap_append, hx, hnil] at h
    exact Nat.not_succ_le_self 1 h
  obtain ⟨ys, hys, hy⟩ := pull_split s.stop htwo (pull s.stop #[] s.items).2.2
  refine ⟨xs ++ ys, ?_, ?_⟩
  · rw [List.append_assoc]
    exact hxs.trans (congrArg _ hys)
  · rw [List.filterMap_append, hx, hy]
    rfl

theorem Pulled.advance (h : Pulled items before c) (hrest : c.rest.filterMap Except.toOption ≠ []) :
    Pulled items (before ++ [c.current]) c.advance ∧
      (c.advance.rest.filterMap Except.toOption).length + 1 =
        (c.rest.filterMap Except.toOption).length := by
  obtain ⟨pulled, hitems, hpulled⟩ := h
  obtain ⟨xs, hxs, hx⟩ := pull_split c.stop hrest c.errors
  have hxs' : c.rest = xs ++ c.advance.rest := hxs
  refine ⟨⟨pulled ++ xs, ?_, ?_⟩, ?_⟩
  · rw [List.append_assoc, ← hxs', hitems]
  · rw [List.filterMap_append, hpulled, hx, List.append_assoc, List.append_assoc]
    rfl
  · rw [hxs', List.filterMap_append, hx, List.length_append, List.length_singleton, Nat.add_comm]

theorem Pulled.course (hc : Course c ts c') :
    ∀ {before : List Token}, Pulled items before c →
      ts.length ≤ (c.rest.filterMap Except.toOption).length → Pulled items (before ++ ts) c' := by
  induction hc with
  | refl => exact fun h _ => by rwa [List.append_nil]
  | @step c c' ts _ _ ih =>
      intro before h hlen
      rw [List.length_cons] at hlen
      obtain ⟨h', hlen'⟩ := h.advance (List.ne_nil_of_length_pos (by omega))
      rw [List.append_cons]
      exact ih h' (by omega)
  | report e _ ih => exact fun h hlen => ih h hlen

/-! ## The end of a run -/

/-- A run passes the tokens ahead, and no other. -/
theorem statementsWithin_course (n : Nat) (c : Cursor) (hn : c.tokens.length ≤ n) :
    Course c c.tokens (c.statementsWithin n).2 ∧ (c.statementsWithin n).2.current.isEof := by
  induction n generalizing c with
  | zero =>
      have hc := isEof_of_length_le hn
      rw [tokens_of_isEof hc, statementsWithin_of_isEof 0 hc]
      exact ⟨.refl c, hc⟩
  | succ n ih =>
      by_cases hc : c.current.isEof
      · rw [tokens_of_isEof hc, statementsWithin_of_isEof _ hc]
        exact ⟨.refl c, hc⟩
      obtain ⟨⟨ts, hts, hcourse⟩, -⟩ := next_course hc
      have hlen := congrArg List.length hcourse.tokens_eq
      have hpos := List.length_pos_iff.mpr hts
      rw [List.length_append] at hlen
      have hrun : (c.statementsWithin (n + 1)).2 = (c.next.statementsWithin n).2 := by
        cases hr : Parse.statement c with
        | ok s c' => rw [statementsWithin_of_ok hc hr, next_of_ok hr]
        | error e c' => rw [statementsWithin_of_error hc hr, next_of_error hr]
      obtain ⟨hrest, hend⟩ := ih c.next (by omega)
      rw [hrun, hcourse.tokens_eq]
      exact ⟨hcourse.trans hrest, hend⟩

theorem endsAt_program (h : (ofStream s).tokens.length + 2 ≤
    (s.items.filterMap Except.toOption).length) :
    s.EndsAt (ofStream s).tokens.length (ofStream s).program.2 := by
  obtain ⟨hcourse, hend⟩ :=
    statementsWithin_course (ofStream s).left (ofStream s) (length_tokens_le_left _)
  have hpulled := pulled_ofStream (s := s) (by omega)
  have hrest : (ofStream s).tokens.length ≤
      ((ofStream s).rest.filterMap Except.toOption).length := by
    obtain ⟨pulled, hitems, htokens⟩ := hpulled
    have hlen := congrArg List.length (congrArg (List.filterMap Except.toOption) hitems)
    rw [List.filterMap_append, List.length_append, htokens] at hlen
    change _ = 2 + _ at hlen
    omega
  obtain ⟨pulled, hitems, htokens⟩ := hpulled.course hcourse hrest
  refine ⟨hend, pulled, hitems, ?_, ?_⟩
  · rw [← tokens_ofStream]
    exact htokens
  · rw [htokens, List.nil_append, List.length_append]
    rfl

end Cursor

/-! ## The parser as a whole -/

theorem parseStream_padded (s : TokenStream) (k : Nat) :
    parseStream (s.padded k) = parseStream s := by
  obtain ⟨hprogram, j, hlast⟩ :=
    Cursor.program_agree Cursor.padded_simulation (Cursor.padded_ofStream s k)
  have herrors := congrArg Cursor.errors hlast
  exact congrArg₂ Parsed.mk hprogram.eq.symm (congrArg Array.toList herrors)

theorem TokenStream.tokens_padded (s : TokenStream) (k : Nat) :
    (s.padded k).items.filterMap Except.toOption =
      s.items.filterMap Except.toOption ++ List.replicate k (.eof s.stop) := by
  have hend : Except.toOption (.ok (.eof s.stop) : Item) = some (.eof s.stop) := rfl
  rw [padded, List.filterMap_append, List.filterMap_replicate_of_some hend]

theorem upToEof_append_replicate (ts : List Token) (stop : Span) (k : Nat) :
    Cursor.upToEof (ts ++ List.replicate k (.eof stop)) = Cursor.upToEof ts := by
  induction ts with
  | nil =>
      cases k with
      | zero => rfl
      | succ k => exact Cursor.upToEof_of_isEof rfl _
  | cons t ts ih =>
      by_cases ht : t.isEof
      · rw [List.cons_append, Cursor.upToEof_of_isEof ht, Cursor.upToEof_of_isEof ht]
      · rw [List.cons_append, Cursor.upToEof_of_not ht, Cursor.upToEof_of_not ht, ih]

/-- The parser of expressions is the one solution of its recursion, all loops come to an end by
using up tokens, and a program is read up to the first end: of a stream with `n` tokens in front of
its first end, `n + 2` are taken. -/
theorem parser_stops :
    (Parse.Recursive Parse.expression ∧ (∀ expr, Parse.Recursive expr → expr = Parse.expression) ∧
      Parse.statement = Parse.stmt Parse.expression) ∧
    (∀ (c : Cursor) (n : Nat), c.tokens.length ≤ n → Progress c n) ∧
    ∀ s : TokenStream,
      Loop Cursor.attemptRound [] (Cursor.ofStream s)
        (.ok (parseStream s).program (Cursor.ofStream s).program.2) ∧
      (Cursor.ofStream s).program.2.current.isEof ∧
      ∀ k, parseStream (s.padded k) = parseStream s ∧
        (s.padded (k + 2)).EndsAt (Cursor.upToEof (s.items.filterMap Except.toOption)).length
          (Cursor.ofStream (s.padded (k + 2))).program.2 := by
  refine ⟨⟨Parse.expression_recursive, fun _ h => h.eq_expression, Parse.statement_eq⟩,
    fun _ _ hn => progress hn, fun s => ⟨?_, ?_, fun k => ⟨parseStream_padded s k, ?_⟩⟩⟩
  · exact (progress (Cursor.length_tokens_le_left _)).program
  · exact (Cursor.statementsWithin_course _ _ (Cursor.length_tokens_le_left _)).2
  · have htokens : (Cursor.ofStream (s.padded (k + 2))).tokens =
        Cursor.upToEof (s.items.filterMap Except.toOption) := by
      rw [Cursor.tokens_ofStream, TokenStream.tokens_padded, upToEof_append_replicate]
    have hle := (List.takeWhile_sublist (l := s.items.filterMap Except.toOption)
      fun t => !t.isEof).length_le
    rw [← htokens]
    refine Cursor.endsAt_program ?_
    rw [htokens, TokenStream.tokens_padded, List.length_append, List.length_replicate]
    exact Nat.add_le_add hle (Nat.le_add_left 2 k)

/-- In `fn() { [1` the end comes inside a list inside a block: there are six tokens, and eight are
taken. -/
theorem parser_stops_unclosed :
    let s : TokenStream := .ofText "fn() \x7b [1"
    ((Cursor.ofStream s).tokens.length ≤ 6 ∧ Progress (Cursor.ofStream s) 6) ∧
      (parseStream s).errors.length = 1 ∧
      Parse.Recursive Parse.expression ∧
      Cursor.upToEof (s.items.filterMap Except.toOption) = (Cursor.ofStream s).tokens ∧
      (s.padded 2).EndsAt (Cursor.upToEof (s.items.filterMap Except.toOption)).length
        (Cursor.ofStream (s.padded 2)).program.2 := by
  intro s
  obtain ⟨⟨hrec, -⟩, hprogress, hstops⟩ := parser_stops
  have hn : (Cursor.ofStream s).tokens.length ≤ 6 := by decide +kernel
  exact ⟨⟨hn, hprogress _ 6 hn⟩, by decide +kernel, hrec, (Cursor.tokens_ofStream s).symm,
    ((hstops s).2.2 0).2⟩

end Monkey
