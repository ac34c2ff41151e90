import Monkey.Proofs.Parse.Accounting
import Monkey.Proofs.Parse.Completeness
import Monkey.Proofs.Token.Writing

/-!
# Programs are recognized

A text that spells a program in the strict grammar is read as that program, without an error.
-/

namespace Monkey

namespace Cursor

/-- What spells a program is read to its end as that program. -/
theorem statementsWithin_complete {ss : List Stmt} {ws : List Word}
    (h : Stmt.SpelledList false ss ws) : ∀ {n : Nat} {c : Cursor}, c.Clean → c.words = ws →
      ws.length ≤ n → Stmt.eraseAll (c.statementsWithin n).1 = Stmt.eraseAll ss ∧
        (c.statementsWithin n).2.errors = c.errors := by
  cases h with
  | nil =>
      intro n c _ hc _
      have heof : c.current.isEof := by
        have hk := c.current_kind
        rw [hc] at hk
        exact decide_eq_true hk
      rw [statementsWithin_of_isEof n heof]
      exact ⟨rfl, rfl⟩
  | @cons s _ ws semicolon vs hs hmark hss =>
      intro n c hclean hc hn
      have hpos := hs.length_pos
      simp only [List.append_assoc, List.length_append] at hc hn
      obtain ⟨n, rfl⟩ := Nat.exists_eq_add_one_of_ne_zero (by omega : n ≠ 0)
      have hkind : c.current.kind ≠ .eof := by
        rw [c.current_kind, hc]
        exact hs.headKind_ne (k := .eof) rfl (by decide) (by decide) _
      have heof : ¬c.current.isEof := fun h => hkind (of_decide_eq_true h)
      have hmark' : Mark .semicolon (Parse.Closes vs) semicolon := by
        simpa using Parse.mark_of_list (r := []) hss (.inr rfl) hmark
      obtain ⟨s', c1, hrun, hs', h1⟩ := Parse.statement_complete hs hmark' hc
      -- no error has been reported on the way
      have hsound := Parse.statement_sound c
      rw [hrun] at hsound
      obtain ⟨ts, hp, hc1, _⟩ := hsound
      obtain ⟨hclean', herr, _⟩ := (hp.trans (.one hc1)).clean hclean
      obtain ⟨hss', herrs⟩ := statementsWithin_complete hss hclean' (Cursor.advance_words h1)
        (by omega : vs.length ≤ n)
      rw [statementsWithin_of_ok heof hrun]
      exact ⟨by simp only [Stmt.respanAll, hs', hss'], herrs.trans herr⟩

end Cursor

/-- Tokens that spell a program are read as that program. -/
theorem parseStream_complete {p : Program} {ts : List Token} (stop : Span)
    (h : Stmt.SpelledList false p (ts.map Token.word)) (hts : ∀ t ∈ ts, ¬t.isEof) :
    (parseStream ⟨ts.map .ok, stop⟩).errors = [] ∧
      Program.erase (parseStream ⟨ts.map .ok, stop⟩).program = Program.erase p := by
  obtain ⟨hclean, htokens, herrors, _⟩ := Cursor.ofStream_of_tokens stop hts
  have hwords : (Cursor.ofStream ⟨ts.map .ok, stop⟩).words = ts.map Token.word := by
    rw [Cursor.words, htokens]
  have hlen : (ts.map Token.word).length ≤ (Cursor.ofStream ⟨ts.map .ok, stop⟩).left := by
    rw [← hwords, Cursor.words, List.length_map]
    exact Cursor.length_tokens_le_left _
  obtain ⟨hp, herr⟩ := Cursor.statementsWithin_complete h hclean hwords hlen
  refine ⟨?_, hp⟩
  rw [parseStream_errors, herr, herrors]

/-- A text that spells words is cut into the tokens of these words. -/
theorem scan_tokens_of_spells {ws : List Word} {text : String} (h : Spells ws text.toList) :
    ∃ ts : List Token, ts.map Token.word = ws ∧ (∀ t ∈ ts, ¬t.isEof) ∧ scan text = ts.map .ok := by
  obtain ⟨ts, hts, hscan⟩ := scan_of_spells h
  refine ⟨ts, hts, fun t ht heof => ?_, hscan⟩
  refine h.kind_ne_eof t.word (hts ▸ List.mem_map_of_mem ht) ?_
  rw [Token.word_kind]
  exact of_decide_eq_true heof

theorem parse_of_spells {p : Program} {ws : List Word} {text : String}
    (hp : Stmt.SpelledList false p ws) (htext : Spells ws text.toList) :
    (parse text).errors = [] ∧ (parse text).program.erase = p.erase := by
  obtain ⟨ts, rfl, hts, hscan⟩ := scan_tokens_of_spells htext
  rw [parse, TokenStream.ofText, hscan]
  exact parseStream_complete _ hp hts

/-- The text spells the program, as words with gaps between them, none of which goes on with the word
in front of it; so behind a slash a gap does not begin with a comment. -/
def Program.Spelled (p : Program) (text : String) : Prop :=
  ∃ ws, Stmt.SpelledList false p ws ∧ Spells ws text.toList

/-- A text that spells a program is read as that program, without an error. -/
theorem parse_of_spelled {p : Program} {text : String} (h : Program.Spelled p text) :
    (parse text).errors = [] ∧ Program.erase (parse text).program = Program.erase p := by
  obtain ⟨ws, hp, htext⟩ := h
  exact parse_of_spells hp htext

/-- A minus before a sum in parentheses, a comment, and a conditional after `else`. -/
theorem parse_of_spelled_elseIf :
    let s : Span := .zero
    let p : Program := [.expr (.cond (.ident "a" s)
      ⟨[.expr (.unary .negate (.binary .add (.ident "b" s) (.int 1 s) s) s) s], s⟩
      (some ⟨[.expr (.cond (.ident "c" s) ⟨[], s⟩ none s) s], s⟩) s) s]
    let text := "if (a) \x7b-(b+1)// c\n\x7delse if(c)\x7b\x7d"
    Program.Spelled p text ∧ (parse text).errors = [] ∧
      Program.erase (parse text).program = Program.erase p := by
  intro s p text
  have hone n : Expr.Spelled false n (.int 1 s) [.integer "1"] := .int rfl
  have hsum : Expr.Spelled false 0
      (.unary .negate (.binary .add (.ident "b" s) (.int 1 s) s) s) _ :=
    .unary (k := .minus) rfl (by decide)
      (.grouped (.binary (k := .plus) rfl (by decide) .ident (hone _)))
  have helse : Block.SpelledElse false
      (some ⟨[.expr (.cond (.ident "c" s) ⟨[], s⟩ none s) s], s⟩) _ :=
    .elseIf (.mk .ident (.mk .nil) .absent)
  have hp : Stmt.SpelledList false p _ :=
    .cons (.expr (.cond (.mk .ident (.mk (.cons (.expr hsum) (.omitted (.inr rfl)) .nil)) helse)))
      (.omitted (.inr rfl)) .nil
  have hblank : Gap [' '] := .blank rfl .nil
  have hcomment : Gap ('/' :: '/' :: [' ', 'c'] ++ ['\n']) := .comment (by decide) .nil
  have hname c (h : Scan.isWordStart c) (hk : Kind.keyword? (String.ofList [c]) = none) :
      (Word.ident (String.ofList [c])).Written [c] := .ident h nofun hk
  have hdigit : (Word.integer "1").Written ['1'] := .integer (List.all_eq_true.mp rfl)
  have hnext {w : Word} {rest : List Char} (h : (rest.head?.all fun c => !w.joins c) = true) :
      ∀ c ∈ rest.head?, ¬w.joins c := by
    simpa [Option.all_eq_true] using h
  have h : Program.Spelled p "if (a) \x7b-(b+1)// c\n\x7delse if(c)\x7b\x7d" := ⟨_, hp,
    .cons .nil (.mark (k := .kwIf) rfl) (hnext rfl) <|
    .cons hblank (.mark (k := .leftParen) rfl) (hnext rfl) <|
    .cons .nil (hname 'a' rfl rfl) (hnext rfl) <|
    .cons .nil (.mark (k := .rightParen) rfl) (hnext rfl) <|
    .cons hblank (.mark (k := .leftBrace) rfl) (hnext rfl) <|
    .cons .nil (.mark (k := .minus) rfl) (hnext rfl) <|
    .cons .nil (.mark (k := .leftParen) rfl) (hnext rfl) <|
    .cons .nil (hname 'b' rfl rfl) (hnext rfl) <|
    .cons .nil (.mark (k := .plus) rfl) (hnext rfl) <|
    .cons .nil hdigit (hnext rfl) <|
    .cons .nil (.mark (k := .rightParen) rfl) (hnext rfl) <|
    .cons hcomment (.mark (k := .rightBrace) rfl) (hnext rfl) <|
    .cons .nil (.mark (k := .kwElse) rfl) (hnext rfl) <|
    .cons hblank (.mark (k := .kwIf) rfl) (hnext rfl) <|
    .cons .nil (.mark (k := .leftParen) rfl) (hnext rfl) <|
    .cons .nil (hname 'c' rfl rfl) (hnext rfl) <|
    .cons .nil (.mark (k := .rightParen) rfl) (hnext rfl) <|
    .cons .nil (.mark (k := .leftBrace) rfl) (hnext rfl) <|
    .cons .nil (.mark (k := .rightBrace) rfl) (hnext rfl) (.nil .nil)⟩
  exact ⟨h, parse_of_spelled h⟩

/-! ## Comments behind a slash -/

/-- The text spells the program, as words with white space or comments between any two of them; also
right behind a slash there may be a comment. -/
def Program.SpelledApart (p : Program) (text : String) : Prop :=
  ∃ (gap : List Char) (ps : List Piece), Gap gap ∧ Piece.Separated ps ∧
    Stmt.SpelledList false p (ps.map Piece.word) ∧
    text = String.ofList (gap ++ Piece.joined ps)

/-- Separated words spell a program unless a comment stands right behind a slash. -/
theorem Program.spelled_of_separated {p : Program} {text : String} {gap : List Char}
    {ps : List Piece} (hgap : Gap gap) (h : Piece.Separated ps) (hps : ∀ q ∈ ps, q.Apart)
    (hp : Stmt.SpelledList false p (ps.map Piece.word))
    (htext : text = String.ofList (gap ++ Piece.joined ps)) : p.Spelled text := by
  refine ⟨_, hp, ?_⟩
  rw [htext, String.toList_ofList]
  exact h.spells hps hgap

/-- A quotient with a comment right behind the slash is read as two statements: the slash belongs to
the comment. With a blank between them the text spells the quotient. -/
theorem parse_of_spelledApart_slash_lost :
    let p : Program := [.expr (.binary .divide (.int 1 .zero) (.int 2 .zero) .zero) .zero]
    let text := "1 ///\n2"
    (p.SpelledApart text ∧ text.utf8ByteSize < UInt32.size - 1) ∧
      ¬((parse text).errors = [] ∧ (parse text).program.erase = p.erase) ∧
      (parse text).program.length = 2 ∧ p.Spelled "1 / //\n2" := by
  intro p text
  have hp : Stmt.SpelledList false p [.integer "1", .mark .slash, .integer "2"] :=
    .cons (.expr (.binary (k := .slash) rfl (by decide) (.int rfl) (.int rfl)))
      (.omitted (.inr rfl)) .nil
  have hdigit {c : Char} (h : c.isDigit) : (Word.integer (String.ofList [c])).Written [c] :=
    .integer (List.forall_mem_singleton.mpr h)
  have hcomment : Gap ('/' :: '/' :: [] ++ '\n' :: []) := .comment nofun .nil
  have hblank : Gap [' '] := .blank rfl .nil
  have hseparated {gap : List Char} (hgap : Gap gap) (hne : gap ≠ []) :
      Piece.Separated [⟨.integer "1", ['1'], [' ']⟩, ⟨.mark .slash, ['/'], gap⟩,
        ⟨.integer "2", ['2'], []⟩] :=
    .cons (hdigit rfl) hblank (fun _ => List.cons_ne_nil _ _) <|
    .cons (.mark (k := .slash) rfl) hgap (fun _ => hne) <|
    .cons (hdigit rfl) .nil (absurd rfl) .nil
  refine ⟨⟨⟨[], _, .nil, hseparated hcomment (List.cons_ne_nil _ _), hp, by decide +kernel⟩,
    by decide⟩, fun h => ?_, by decide +kernel, ?_⟩
  · have htwo : (parse text).program.erase.length = 2 := by decide +kernel
    rw [h.2] at htwo
    cases htwo
  · refine Program.spelled_of_separated .nil
      (hseparated (.blank rfl hcomment) (List.cons_ne_nil ' ' _)) ?_ hp (by decide +kernel)
    simp only [List.forall_mem_cons]
    exact ⟨nofun, fun _ => by decide, nofun, nofun⟩

end Monkey
