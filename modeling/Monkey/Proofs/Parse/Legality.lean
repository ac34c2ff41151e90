import Monkey.Proofs.Parse.Accounting
import Monkey.Proofs.Parse.Expressible
import Monkey.Proofs.Token.Coverage

/-!
# Whatever is parsed can be written

The words that spell a tree of the parser are tokens of its source, each with a text there. So the
tree is legal, even where the source has errors elsewhere: its names are names, it has no integer
below zero, and no statement in it is a bare block.
-/

namespace Monkey

open String (utf8Len)

variable {lax : Bool}

/-! ## The tokens of a text -/

/-- What an item says is written somewhere, whatever the text. -/
theorem Scan.foldl_written (text : List Char) (pos : Nat) (items : Array Item)
    (hitems : ∀ i ∈ items.toList, ∃ cs, i.reading.Written cs) :
    ∀ i ∈ (text.foldl feed ⟨pos, .gap, items⟩).finish, ∃ cs, i.reading.Written cs := by
  induction hn : text.length using Nat.strongRecOn generalizing text pos items with
  | ind n ih =>
  subst hn
  by_cases hnil : text = []
  · subst hnil
    simpa using hitems
  cases begins_of_ne_nil hnil with
  | @blank c cs hc =>
      rw [List.foldl_cons, feed_begin (begin_of_isBlank hc)]
      exact ih _ (Nat.lt_succ_self _) cs _ items hitems rfl
  | @comment cs rest hcs =>
      rw [List.foldl_append, foldl_line hcs]
      exact ih _ (by simp; omega) rest _ items hitems rfl
  | lastComment hcs =>
      rw [foldl_comment hcs]
      simpa [finish, Mode.item?] using hitems
  | @item r cs rest hr hrest =>
      obtain ⟨i, -, hcut, -, hpast⟩ := past_reading hr pos items
      have hlt : rest.length < (cs ++ rest).length := by
        have hlen := List.length_pos_iff.mpr hr.ne_nil
        rw [List.length_append]
        omega
      rw [List.foldl_append, hpast.finish_foldl hrest]
      refine ih _ hlt rest _ (items.toList ++ [i]).toArray ?_ rfl
      rw [List.toList_toArray]
      exact List.forall_mem_append.mpr ⟨hitems, List.forall_mem_singleton.mpr ⟨cs, hcut.written⟩⟩

/-- Each token of a text has a text. -/
theorem scan_written {text : String} {t : Token} (h : .ok t ∈ scan text) :
    ∃ cs, t.word.Written cs := by
  obtain ⟨cs, hcs⟩ := Scan.foldl_written text.toList 0 #[] nofun _ h
  cases hcs with
  | word hw => exact ⟨cs, hw⟩

theorem Cursor.tokens_ofStream (s : TokenStream) :
    (ofStream s).tokens = upToEof (s.items.filterMap Except.toOption) := by
  rw [← upToEof_pull s.stop #[] s.items]
  by_cases hc : (ofStream s).current.isEof
  · rw [tokens_of_isEof hc]
    exact (upToEof_of_isEof hc _).symm
  · have htail := upToEof_pull s.stop (pull s.stop #[] s.items).2.2 (pull s.stop #[] s.items).2.1
    have hc' : ¬(pull s.stop #[] s.items).1.isEof := hc
    rw [tokens, upToEof_of_not hc, upToEof_of_not hc']
    exact congrArg _ htail

theorem Cursor.words_ofText_writable (text : String) :
    Writable (ofStream (.ofText text)).words := by
  intro w hw
  obtain ⟨t, ht, rfl⟩ := List.mem_map.mp hw
  rw [tokens_ofStream] at ht
  obtain ⟨i, hi, hit⟩ := List.mem_filterMap.mp ((List.takeWhile_sublist _).subset ht)
  cases i with
  | ok u => exact scan_written (Option.some.inj hit ▸ hi)
  | error e => cases hit

/-! ## Trees spelled by such tokens -/

namespace Writable

variable {w : Word} {ws vs : List Word}

theorem tail (h : Writable (w :: ws)) : Writable ws :=
  (List.forall_mem_cons.mp h).2

theorem left (h : Writable (ws ++ vs)) : Writable ws :=
  (List.forall_mem_append.mp h).1

theorem right (h : Writable (ws ++ vs)) : Writable vs :=
  (List.forall_mem_append.mp h).2

theorem legalName {name : String} (h : Writable (.ident name :: ws)) : LegalName name := by
  obtain ⟨cs, hcs⟩ := (List.forall_mem_cons.mp h).1
  cases hcs with
  | ident hc hcs hkey => exact ⟨_, _, rfl, hc, hcs, hkey⟩

theorem toInt_nonneg {digits : String} {v : Int64} (h : Writable (.integer digits :: ws))
    (hv : Text.int64? digits = some v) : 0 ≤ v.toInt := by
  obtain ⟨cs, hcs⟩ := (List.forall_mem_cons.mp h).1
  cases hcs with
  | integer hdigits =>
      rw [Text.int64?, String.toList_ofList,
        int64OfChars?_of_isDigit (hdigits _ List.mem_cons_self)] at hv
      obtain ⟨n, -, hn⟩ := Option.bind_eq_some_iff.mp hv
      rw [Text.int64OfInt?] at hn
      split at hn
      · cases hn
        rw [Int64.toInt_ofIntLE]
        exact Int.natCast_nonneg n
      · cases hn

theorem legalNames {ps : List Ident} (h : Writable (Ident.spellings ps)) :
    ∀ p ∈ ps, LegalName p.name := by
  cases ps with
  | nil => exact nofun
  | cons p ps =>
      refine List.forall_mem_cons.mpr ⟨h.legalName, fun q hq => ?_⟩
      have hpair : Writable [.mark .comma, .ident q.name] :=
        fun w hw => h.tail w (List.mem_flatMap.mpr ⟨q, hq, hw⟩)
      exact hpair.tail.legalName

end Writable

theorem Expr.legal_cond {test : Expr} {yes : Block} {no : Option Block} {s : Span} :
    (Expr.cond test yes no s).Legal ↔ test.Legal ∧ yes.Legal ∧ ∀ b ∈ no, b.Legal := by
  cases no <;> simp [Expr.Legal]

mutual
/-- What words with texts spell is legal. -/
theorem Expr.Spelled.legal {n : Nat} {e : Expr} {ws : List Word} :
    Expr.Spelled lax n e ws → Writable ws → e.Legal
  | .ident, h => h.legalName
  | .int hv, h => h.toInt_nonneg hv
  | .yes, _ | .no, _ | .str, _ => trivial
  | .grouped he, h => he.legal h.tail.left
  | .unary _ _ he, h => he.legal h.tail
  | .binary _ _ hl hr, h => ⟨hl.legal h.left, hr.legal h.right.tail⟩
  | .cond hc, h => hc.legal h
  | .fn hb, h => ⟨h.left.tail.tail.legalNames, hb.legal h.right.tail⟩
  | .call hf ha, h => ⟨hf.legal h.left.left, ha.legal h.left.right.tail⟩
  | .array hi, h => hi.legal h.tail.left
  | .index ho hk, h => ⟨ho.legal h.left.left, hk.legal h.left.right.tail⟩
  | .hash hp, h => hp.legal h.tail.left

theorem Expr.SpelledCond.legal {e : Expr} {ws : List Word} :
    Expr.SpelledCond lax e ws → Writable ws → e.Legal
  | .mk ht hy hno, h =>
      Expr.legal_cond.mpr ⟨ht.legal h.left.left.tail.tail, hy.legal h.left.right.tail,
        hno.legal h.right⟩

theorem Expr.SpelledList.legal {es : List Expr} {ws : List Word} :
    Expr.SpelledList lax es ws → Writable ws → Expr.LegalAll es
  | .nil, _ => trivial
  | .cons he hes, h => ⟨he.legal h.left, hes.legal h.right⟩

theorem Expr.SpelledTail.legal {es : List Expr} {ws : List Word} :
    Expr.SpelledTail lax es ws → Writable ws → Expr.LegalAll es
  | .nil, _ => trivial
  | .cons he hes, h => ⟨he.legal h.left.tail, hes.legal h.right⟩

theorem Expr.SpelledPairs.legal {ps : List (Expr × Expr)} {ws : List Word} :
    Expr.SpelledPairs lax ps ws → Writable ws → Expr.LegalPairs ps
  | .nil, _ => trivial
  | .cons hk hv _ hps, h =>
      ⟨hk.legal h.left.left.left, hv.legal h.left.left.right.tail, hps.legal h.right⟩

theorem Stmt.Spelled.legal {s : Stmt} {ws : List Word} :
    Stmt.Spelled lax s ws → Writable ws → s.Legal
  | .bind he, h => ⟨h.tail.legalName, he.legal h.tail.tail.tail⟩
  | .ret he, h => he.legal h.tail
  | .expr he, h => he.legal h

theorem Stmt.SpelledList.legal {ss : List Stmt} {ws : List Word} :
    Stmt.SpelledList lax ss ws → Writable ws → Stmt.LegalAll ss
  | .nil, _ => trivial
  | .cons hs _ hss, h => ⟨hs.legal h.left.left, hss.legal h.right⟩

theorem Block.Spelled.legal {b : Block} {ws : List Word} :
    Block.Spelled lax b ws → Writable ws → b.Legal
  | .mk hss, h => hss.legal h.tail.left

theorem Block.SpelledElse.legal {no : Option Block} {ws : List Word} :
    Block.SpelledElse lax no ws → Writable ws → ∀ b ∈ no, b.Legal
  | .absent, _ => nofun
  | .block hb, h => fun _ hno => Option.some.inj hno ▸ hb.legal h.tail
  | .elseIf hc, h => fun _ hno => Option.some.inj hno ▸ ⟨hc.legal h.tail, trivial⟩
end

theorem Stmt.SpelledFull.legal {s : Stmt} {ws : List Word} (h : Stmt.SpelledFull lax s ws)
    (hws : Writable ws) : s.Legal := by
  obtain ⟨vs, semicolon, hs, -, rfl⟩ := h
  exact hs.legal hws.left

/-! ## Trees of the parser -/

namespace Cursor

theorem Passes.writable {c c' : Cursor} {ts : List Token} (h : Passes c ts c')
    (hc : Writable c.words) : Writable c'.words := by
  rw [words, h.tokens_eq, List.map_append] at hc
  exact hc.right

/-- The words that a parser has passed, up to and with the current one. -/
theorem Passes.writable_passed {c c' : Cursor} {ts : List Token} (h : Passes c ts c')
    (hc : Writable c.words) (hc' : ¬c'.current.isEof) :
    Writable (ts.map Token.word ++ [c'.current.word]) := by
  rw [words, h.tokens_eq, tokens_eq_cons hc', List.map_append, List.map_cons,
    List.append_cons] at hc
  exact hc.left

theorem statementsWithin_legal (n : Nat) : ∀ c : Cursor, Writable c.words →
    Stmt.LegalAll (c.statementsWithin n).1 := by
  induction n with
  | zero => exact fun _ _ => trivial
  | succ n ih =>
      intro c hc
      by_cases heof : c.current.isEof
      · rw [statementsWithin_of_isEof _ heof]
        trivial
      have hsound := Parse.statement_sound c
      cases hrun : Parse.statement c with
      | ok s c' =>
          rw [hrun] at hsound
          obtain ⟨ts, hp, hc', hs⟩ := hsound
          rw [statementsWithin_of_ok heof hrun]
          exact ⟨hs.legal (hp.writable_passed hc hc'), ih _ ((hp.trans (.one hc')).writable hc)⟩
      | error e c' =>
          rw [hrun] at hsound
          obtain ⟨⟨ts, hp⟩, -⟩ := hsound
          obtain ⟨us, hq, -⟩ :=
            synchronize_passes c.nesting c'.left (c'.report e) (length_tokens_le_left c')
          rw [statementsWithin_of_error heof hrun]
          exact ih _ (hq.writable (hp.writable hc))

end Cursor

theorem parseStream_legal {stream : TokenStream} (h : Writable (Cursor.ofStream stream).words) :
    ∀ s ∈ (parseStream stream).program, s.Legal :=
  Stmt.legalAll_iff.mp (Cursor.statementsWithin_legal (Cursor.ofStream stream).left _ h)

/-- The statements of any source are legal. -/
theorem parse_legal (text : String) : ∀ s ∈ (parse text).program, s.Legal :=
  parseStream_legal (Cursor.words_ofText_writable text)

/-- So is an expression that is parsed alone. -/
theorem Parse.expression_legal {p : Precedence} {e : Expr} {c c' : Cursor}
    (hc : Writable c.words) (h : Parse.expression p c = .ok e c') : e.Legal := by
  have hsound := expressionWithin_sound c.left p c (Cursor.length_tokens_le_left c)
  have hrun : Parse.expressionWithin c.left p c = .ok e c' := h
  rw [hrun] at hsound
  obtain ⟨ts, hp, ⟨hc', hs⟩, -⟩ := hsound
  exact hs.legal (hp.writable_passed hc hc')

end Monkey
