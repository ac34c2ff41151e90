import Mathlib.Data.List.Forall2
import Monkey.Proofs.Parse.Attempts
import Monkey.Proofs.Parse.Ending
import Monkey.Proofs.Parse.Sifting

/-!
# No token is blamed twice

Each error that the parser finds is about a token behind those that the errors before it are about.
An attempt that fails blames the token where it stops or the one after that; recovery then passes
over the token that is blamed, unless this is a `let` or a `return`, and these are not blamed by the
statements that they begin.
-/

namespace Monkey

namespace Cursor

variable {stop stop' : Span} {errors : Array SyntaxError} {n depth : Nat} {c c' d : Cursor}
  {t : Token} {ts bs : List Token} {e : SyntaxError}

/-! ## Behind a semicolon -/

theorem place_tokens (hts : ∀ t ∈ ts, ¬t.isEof) : (place stop errors n ts).tokens = ts := by
  induction ts generalizing n with
  | nil => rfl
  | cons t ts ih =>
      obtain ⟨ht, hts⟩ := List.forall_mem_cons.mp hts
      rw [tokens_eq_cons (by simpa using ht), place_advance, place_current, ih hts]

theorem not_isEof_of_mem (ht : t ∈ c.tokens) : ¬t.isEof := by
  simpa using List.mem_takeWhile_imp ht

theorem Clean.exists_rest (h : c.Clean) :
    ∃ us : List Token, c.rest = us.map .ok ∧ ∀ u ∈ us, ¬u.isEof := by
  have hrest := h.rest
  generalize c.rest = items at hrest ⊢
  induction items with
  | nil => exact ⟨[], rfl, List.forall_mem_nil _⟩
  | cons i items ih =>
      obtain ⟨⟨t, rfl, ht⟩, hitems⟩ := List.forall_mem_cons.mp hrest
      obtain ⟨us, rfl, hus⟩ := ih hitems
      exact ⟨t :: us, rfl, List.forall_mem_cons.mpr ⟨ht, hus⟩⟩

/-- Such a place is given by the tokens from it on. -/
theorem Clean.exists_place (h : c.Clean) :
    ∃ ts, c = place c.stop c.errors c.nesting ts ∧ ∀ t ∈ ts, ¬t.isEof := by
  obtain ⟨us, hus, hlive⟩ := h.exists_rest
  have hcurrent := h.current
  have hpeek := h.peek
  obtain ⟨current, peek, rest, stop, errors, nesting⟩ := c
  dsimp only at hus hcurrent hpeek ⊢
  by_cases hp : peek.isEof
  · obtain ⟨rfl, hnil⟩ := hpeek hp
    by_cases hc : current.isEof
    · exact ⟨[], by rw [(hcurrent hc).1, hnil, place], List.forall_mem_nil _⟩
    · exact ⟨[current], by rw [hnil, place], by simpa using hc⟩
  · have hc : ¬current.isEof := fun hc => hp (hcurrent hc).2
    exact ⟨current :: peek :: us, by rw [hus, place], by simpa [hc, hp] using hlive⟩

theorem Clean.eq_place (h : c.Clean) : c = place c.stop c.errors c.nesting c.tokens := by
  obtain ⟨ts, hc, hts⟩ := h.exists_place
  rwa [(congrArg tokens hc).trans (place_tokens hts)]

theorem Concludes.not_isEof (h : Concludes n ts) : ∀ t ∈ ts, ¬t.isEof := by
  induction h with
  | last ht =>
      intro u hu
      rw [List.mem_singleton.mp hu, Token.isEof, ht]
      decide
  | cons ht _ ih => exact List.forall_mem_cons.mpr ⟨ht, ih⟩

/-- With no more tokens behind the semicolon than `bs`, the first source has nothing behind it. -/
theorem Cut.peek_eq (h : Cut stop stop' bs c d) (hbs : ∀ t ∈ bs, ¬t.isEof)
    (hlen : d.tokens.length = bs.length + 1) : c.peek = .eof stop' := by
  obtain ⟨hts⟩ := h
  rw [place_tokens fun t ht => (List.mem_append.mp ht).elim (hts.not_isEof t) (hbs t),
    List.length_append] at hlen
  have hone := Nat.add_right_cancel (hlen.trans (Nat.add_comm _ _))
  obtain ⟨t, rfl⟩ := List.length_eq_one_iff.mp hone
  rfl

/-- A statement that fails on a semicolon outside all braces blames that one, and not the token
behind it, which it has not looked at. -/
theorem blames_semicolon (h : c.Clean) (hn : c.nesting = 0) (hr : Parse.statement c = .error e c')
    (hk : c'.current.kind = .semicolon) (hn' : c'.nesting = 0) : e.Blames c'.current := by
  have hsound := Parse.statement_sound c
  rw [hr] at hsound
  obtain ⟨⟨ts, hp⟩, hb⟩ := hsound
  rcases hb with hb | hpeek
  · exact hb
  have hc' : ¬c'.current.isEof := Token.not_isEof_of_kind hk nofun
  have htokens : c.tokens = (ts ++ [c'.current]) ++ c'.advance.tokens :=
    (hp.trans (.one hc')).tokens_eq
  have hconcludes : Concludes 0 (ts ++ [c'.current]) := by
    refine .of_getLast? (fun t ht => not_isEof_of_mem (c := c) ?_) (by simp [hk]) ?_
    · exact htokens ▸ List.mem_append_left _ ht
    · have hnesting := hp.course.nesting
      rw [hn, hn'] at hnesting
      rw [List.map_append, List.foldl_append, ← hnesting, List.map_singleton, hk]
      rfl
  -- a source that ends behind the semicolon, elsewhere than where the token behind it stands
  obtain ⟨stop', hstop'⟩ : ∃ stop' : Span, stop' ≠ c'.peek.span :=
    ⟨⟨c'.peek.span.start + 1, 0⟩, fun h => by simpa using congrArg Span.start h⟩
  have hcut : Cut c.stop stop' c'.advance.tokens (place stop' c.errors 0 (ts ++ [c'.current]))
      (place c.stop c.errors 0 ((ts ++ [c'.current]) ++ c'.advance.tokens)) := .mk hconcludes
  rw [← htokens, ← hn, ← h.eq_place, hn] at hcut
  have hagree := Parse.statement_agree Cut.simulation hcut
  have hsound := Parse.statement_sound (place stop' c.errors 0 (ts ++ [c'.current]))
  cases hr0 : Parse.statement (place stop' c.errors 0 (ts ++ [c'.current])) with
  | ok s d =>
      rw [hr0, hr] at hagree
      exact hagree.elim
  | error f d =>
      rw [hr0] at hsound
      rw [hr0, hr] at hagree
      obtain ⟨hfe, hd⟩ := hagree
      obtain rfl := hfe.eq
      have hend := hd.peek_eq (fun t ht => not_isEof_of_mem ht) (Parse.length_advance hc').symm
      rcases hsound.2 with hb | hb
      · exact hd.current_eq ▸ hb
      · rw [hend] at hb
        exact absurd (hb.1.symm.trans hpeek.1) hstop'

/-! ## What can still be blamed -/

/-- The tokens from the current one on, and the end. -/
def ahead (c : Cursor) : List Token :=
  c.tokens ++ [.eof c.stop]

/-- The tokens that attempts from here on can blame. -/
def blamable (c : Cursor) : List Token :=
  if c.current.kind ∈ [.kwLet, .kwReturn, .eof] then c.ahead.tail else c.ahead

theorem ahead_of_isEof (hc : c.current.isEof) : c.ahead = [.eof c.stop] := by
  rw [ahead, tokens_of_isEof hc, List.nil_append]

theorem ahead_eq_cons (hc : ¬c.current.isEof) : c.ahead = c.current :: c.advance.ahead := by
  rw [ahead, tokens_eq_cons hc]
  rfl

theorem Clean.ahead_eq (h : c.Clean) : c.ahead = c.current :: c.ahead.tail := by
  by_cases hc : c.current.isEof
  · rw [ahead_of_isEof hc, (h.current hc).1]
    rfl
  · rw [ahead_eq_cons hc, List.tail_cons]

theorem blamable_sublist (c : Cursor) : c.blamable.Sublist c.ahead := by
  rw [blamable]
  split
  · exact List.tail_sublist _
  · exact .refl _

theorem blamable_of_mem (hk : c.current.kind ∈ [.kwLet, .kwReturn, .eof]) :
    c.blamable = c.ahead.tail := if_pos hk

theorem blamable_of_isEof (hc : c.current.isEof) : c.blamable = [] := by
  have hk : c.current.kind = .eof := of_decide_eq_true hc
  rw [blamable_of_mem (by simp [hk]), ahead_of_isEof hc]
  rfl

theorem Passes.ahead_sublist (hp : Passes c ts c') (h : c.Clean) : c'.ahead.Sublist c.ahead := by
  rw [ahead, ahead, hp.tokens_eq, (hp.clean h).2.2, List.append_assoc]
  exact List.sublist_append_right _ _

/-- From behind the first token all tokens can be blamed. -/
theorem Passes.ahead_sublist_blamable (hp : Passes c ts c') (h : c.Clean) (hts : ts ≠ []) :
    c'.ahead.Sublist c.blamable := by
  cases hp with
  | refl => exact absurd rfl hts
  | step hc hp =>
      refine (hp.ahead_sublist h.advance.1).trans ?_
      rw [blamable, ahead_eq_cons hc, List.tail_cons]
      split
      · exact .refl _
      · exact List.sublist_cons_self _ _

/-! ## Progress -/

theorem blamable_synchronize (depth n : Nat) : ∀ c : Cursor, c.tokens.length ≤ n →
    (c.synchronize depth n).blamable.Sublist c.ahead.tail := by
  induction n with
  | zero =>
      intro c hn
      have hc := isEof_of_length_le hn
      rw [synchronize, blamable_of_isEof hc]
      exact List.nil_sublist _
  | succ n ih =>
      intro c hn
      rw [synchronize]
      split
      · rename_i hc
        rw [blamable_of_isEof hc]
        exact List.nil_sublist _
      rename_i hc
      rw [ahead_eq_cons hc, List.tail_cons]
      split
      · exact blamable_sublist _
      dsimp only
      split
      · exact blamable_sublist _
      · have hlen := Parse.length_advance hc
        exact (ih c.advance (by omega)).trans (List.tail_sublist _)

theorem blamable_recover (c : Cursor) (depth : Nat) (e : SyntaxError) :
    (c.recover depth e).blamable.Sublist c.ahead.tail :=
  blamable_synchronize depth c.left (c.report e) (length_tokens_le_left c)

/-- Unless the parser stands on a semicolon that ends the statement, recovery passes over the token
behind the current one, too. -/
theorem blamable_recover_of_not (hc : ¬c.current.isEof)
    (hs : ¬(c.current.kind = .semicolon ∧ c.nesting ≤ depth)) (e : SyntaxError) :
    (c.recover depth e).blamable.Sublist c.advance.ahead.tail := by
  have hlen : (c.report e).advance.tokens.length + 1 = (c.report e).tokens.length :=
    Parse.length_advance (c := c.report e) hc
  have hleft : (c.report e).tokens.length ≤ c.rest.length + 2 := c.length_tokens_le_left
  have hahead : c.advance.ahead = (c.report e).advance.ahead :=
    (List.cons.inj ((ahead_eq_cons hc).symm.trans (ahead_eq_cons (c := c.report e) hc))).2
  change ((c.report e).synchronize depth (c.rest.length + 1 + 1)).blamable.Sublist _
  rw [synchronize, if_neg (by exact hc), if_neg (by exact hs), hahead]
  dsimp only
  split
  · rename_i hk
    rw [blamable_of_mem (by rcases hk.2 with hk | hk <;> simp [hk])]
  · exact blamable_synchronize depth _ (c.report e).advance (by omega)

/-- The attempt at `c` fails at `c'`, where it blames the current token or the next one. This is a
token that it can blame, and the attempts after it can blame those behind that token. -/
structure BlamedAt (c c' : Cursor) (e : SyntaxError) (t : Token) (us : List Token) : Prop where
  sublist : (t :: us).Sublist c.blamable
  blames : e.Blames t
  next : c.next.blamable.Sublist us
  place : c'.ahead = t :: us ∨ ¬c'.current.isEof ∧ c'.advance.ahead = t :: us

theorem statement_blames (h : c.Clean) (hc : ¬c.current.isEof) (hn : c.nesting = 0)
    (hr : Parse.statement c = .error e c') : ∃ t us, BlamedAt c c' e t us := by
  have hsound := Parse.statement_sound c
  rw [hr] at hsound
  obtain ⟨⟨ts, hp⟩, hb⟩ := hsound
  have h' := (hp.clean h).1
  have hnext : c.next = c'.recover 0 e := hn ▸ next_of_error hr
  have hcurrent (hs : c'.ahead.Sublist c.blamable) (hb : e.Blames c'.current) :
      ∃ t us, BlamedAt c c' e t us :=
    ⟨c'.current, c'.ahead.tail, h'.ahead_eq ▸ hs, hb, hnext ▸ blamable_recover c' 0 e,
      .inl h'.ahead_eq⟩
  have hpeek (hc' : ¬c'.current.isEof) (hs : ¬(c'.current.kind = .semicolon ∧ c'.nesting ≤ 0))
      (hb : e.Blames c'.peek) : ∃ t us, BlamedAt c c' e t us := by
    refine ⟨c'.peek, c'.advance.ahead.tail, ?_, hb, hnext ▸ blamable_recover_of_not hc' hs e,
      .inr ⟨hc', h'.advance.1.ahead_eq⟩⟩
    have hone := (hp.trans (.one hc')).ahead_sublist_blamable h (by simp)
    rwa [h'.advance.1.ahead_eq] at hone
  have hbehind (hs : c'.ahead.Sublist c.blamable) : ∃ t us, BlamedAt c c' e t us := by
    by_cases hc' : c'.current.isEof
    · refine hcurrent hs (hb.elim id fun hb => ?_)
      obtain ⟨hcur, hpk⟩ := h'.current hc'
      rwa [hcur, ← (h'.peek hpk).1]
    by_cases hsemi : c'.current.kind = .semicolon ∧ c'.nesting ≤ 0
    · exact hcurrent hs (blames_semicolon h hn hr hsemi.1 (Nat.le_zero.mp hsemi.2))
    · exact hb.elim (hcurrent hs) (hpeek hc' hsemi)
  by_cases hk : c.current.kind = .kwLet ∨ c.current.kind = .kwReturn
  · rcases Parse.statement_error_of_keyword hk hr with ⟨rfl, rfl, hne⟩ | hlen
    · refine hpeek hc (fun hs => ?_) ⟨rfl, rfl, hne.symm⟩
      rcases hk with hk | hk <;> exact absurd (hs.1.symm.trans hk) nofun
    · refine hbehind (hp.ahead_sublist_blamable h fun hts => ?_)
      rw [hp.tokens_eq, hts] at hlen
      exact Nat.lt_irrefl _ hlen
  · have hkind : c.current.kind ∉ [.kwLet, .kwReturn, .eof] := by
      simpa [Token.isEof, and_assoc] using And.intro (not_or.mp hk) hc
    have hblamable : c.blamable = c.ahead := if_neg hkind
    exact hbehind (hblamable ▸ hp.ahead_sublist h)

/-! ## Whole runs -/

/-- The errors that a run adds blame tokens one behind the other. -/
theorem statementsWithin_blames (n : Nat) : ∀ c : Cursor, c.tokens.length ≤ n → c.Clean →
    (¬c.current.isEof → c.nesting = 0) →
      ∃ (es : List SyntaxError) (blamed : List Token),
        (c.statementsWithin n).2.errors = c.errors ++ es ∧
          List.Forall₂ SyntaxError.Blames es blamed ∧ blamed.Sublist c.blamable := by
  induction n with
  | zero => exact fun c _ _ _ => ⟨[], [], by simp [statementsWithin], .nil, List.nil_sublist _⟩
  | succ n ih =>
      intro c hn h hnesting
      by_cases hc : c.current.isEof
      · rw [statementsWithin_of_isEof _ hc]
        exact ⟨[], [], by simp, .nil, List.nil_sublist _⟩
      have hzero := hnesting hc
      obtain ⟨⟨us, hus, hcourse⟩, hle⟩ := next_course hc
      have hnext (hend : ¬c.next.current.isEof) : c.next.nesting = 0 :=
        Nat.le_zero.mp (hzero ▸ hle hend)
      have hlen : c.next.tokens.length ≤ n := by
        have hpos := List.length_pos_iff.mpr hus
        rw [hcourse.tokens_eq, List.length_append] at hn
        omega
      have hsound := Parse.statement_sound c
      cases hr : Parse.statement c with
      | ok s c' =>
          rw [hr] at hsound
          obtain ⟨ts, hp, hc', -⟩ := hsound
          have hp' := hp.trans (.one hc')
          obtain ⟨hclean, herrors, -⟩ := hp'.clean h
          rw [next_of_ok hr] at hnext hlen
          obtain ⟨es, blamed, hes, hblames, hsub⟩ := ih _ hlen hclean hnext
          refine ⟨es, blamed, ?_, hblames, hsub.trans ((blamable_sublist _).trans ?_)⟩
          · rw [statementsWithin_of_ok hc hr, hes, herrors]
          · exact hp'.ahead_sublist_blamable h (by simp)
      | error e c' =>
          rw [hr] at hsound
          obtain ⟨⟨ts, hp⟩, -⟩ := hsound
          obtain ⟨h', herrors', -⟩ := hp.clean h
          obtain ⟨vs, hq, -⟩ :=
            synchronize_passes c.nesting c'.left (c'.report e) (length_tokens_le_left c')
          obtain ⟨hclean, herrors, -⟩ := hq.clean (h'.report e)
          obtain ⟨t, us, ht, hb, htail, -⟩ := statement_blames h hc hzero hr
          rw [next_of_error hr] at hnext hlen htail
          obtain ⟨es, blamed, hes, hblames, hsub⟩ := ih _ hlen hclean hnext
          refine ⟨e :: es, t :: blamed, ?_, .cons hb hblames, ?_⟩
          · have hreport : (c'.recover c.nesting e).errors = c.errors.push e :=
              herrors.trans (congrArg (Array.push · e) herrors')
            rw [statementsWithin_of_error hc hr, hes, hreport]
            simp
          · exact ((hsub.trans htail).cons_cons t).trans ht

end Cursor

/-- The errors in a stream of tokens blame tokens of the stream, or its end, one behind the
other. -/
theorem parseStream_blames (ts : List Token) (stop : Span) (hts : ∀ t ∈ ts, ¬t.isEof) :
    ∃ blamed, List.Forall₂ SyntaxError.Blames (parseStream ⟨ts.map .ok, stop⟩).errors blamed ∧
      blamed.Sublist (ts ++ [.eof stop]) := by
  obtain ⟨hclean, htokens, herrors, hstop⟩ := Cursor.ofStream_of_tokens stop hts
  obtain ⟨es, blamed, hes, hblames, hsub⟩ := Cursor.statementsWithin_blames _ _
    (Cursor.length_tokens_le_left _) hclean fun _ => rfl
  have hahead : (Cursor.ofStream ⟨ts.map .ok, stop⟩).ahead = ts ++ [.eof stop] := by
    rw [Cursor.ahead, htokens, hstop]
  refine ⟨blamed, ?_, hahead ▸ hsub.trans (Cursor.blamable_sublist _)⟩
  rw [parseStream_errors, hes, herrors]
  simpa using hblames

/-! ## With lexical errors -/

/-- The tokens of the stream, without the errors between them. -/
def TokenStream.tokens (s : TokenStream) : List Token :=
  s.items.filterMap Except.toOption

theorem TokenStream.sifted_eq (s : TokenStream) : s.sifted = ⟨s.tokens.map .ok, s.stop⟩ := by
  have h : ∀ items : List Item,
      items.filter Item.isToken = (items.filterMap Except.toOption).map .ok := by
    intro items
    induction items with
    | nil => rfl
    | cons i items ih =>
        cases i with
        | ok t => exact congrArg (.ok t :: ·) ih
        | error e => exact ih
  rw [sifted, h, tokens]

theorem TokenStream.mem_tokens_iff {s : TokenStream} {t : Token} :
    t ∈ s.tokens ↔ .ok t ∈ s.items := by
  rw [tokens, List.mem_filterMap]
  constructor
  · rintro ⟨_ | u, hu, ht⟩ <;> cases ht
    exact hu
  · exact fun h => ⟨_, h, rfl⟩

/-- What the lexical errors of a stream do to what is made of its tokens. -/
structure Transparent (s : TokenStream) : Prop where
  /-- Nothing to the program. -/
  program : (parseStream s).program = (parseStream s.sifted).program
  /-- Nothing to the errors that the parser finds itself. -/
  syntactic : (parseStream s).errors.filter (fun e => e.lexical? = none) =
    (parseStream s.sifted).errors
  /-- They are reported, each of them once, in the order in which they stand. -/
  lexical : (parseStream s).errors.filterMap SyntaxError.lexical? = s.items.filterMap Item.error?
  /-- The other errors blame tokens at ever later places; the end is the last place. -/
  increasing : ∃ places : List Nat, places.Pairwise (· < ·) ∧
    List.Forall₂ (fun e i => ∃ t, (s.tokens ++ [s.final])[i]? = some t ∧ e.Blames t)
      ((parseStream s).errors.filter fun e => e.lexical? = none) places

/-- Lexical errors are passed over and reported once; and no token is blamed twice. -/
theorem parseStream_transparent (s : TokenStream)
    (htokens : ∀ t : Token, .ok t ∈ s.items → ¬t.isEof) : Transparent s := by
  obtain ⟨hprogram, hmix⟩ := parseStream_sifted htokens
  obtain ⟨blamed, hblames, hsub⟩ := parseStream_blames s.tokens s.stop
    fun t ht => htokens t (TokenStream.mem_tokens_iff.mp ht)
  rw [← s.sifted_eq] at hblames
  have hnone : ∀ e ∈ (parseStream s.sifted).errors, e.lexical? = none :=
    ((List.forall₂_and_left _ _).mp (hblames.imp fun e t hb => ⟨hb.lexical?_eq_none, hb⟩)).1
  have hsyntactic := hmix.filter_lexical? hnone rfl
  refine ⟨hprogram, hsyntactic, hmix.filterMap_lexical? hnone rfl, ?_⟩
  obtain ⟨places, rfl, hplaces⟩ := List.sublist_eq_map_getElem hsub
  rw [hsyntactic]
  refine ⟨places.map Fin.val, List.pairwise_map.mpr hplaces, ?_⟩
  rw [List.forall₂_map_right_iff] at hblames ⊢
  exact hblames.imp fun e i hb => ⟨_, List.getElem?_eq_getElem i.isLt, hb⟩

/-- The items of `let @ 5; y; ) #`: the parser wants a name where it finds `5`, and an operand where
it finds the parenthesis. -/
theorem parseStream_transparent_two_of_each :
    let s : TokenStream := ⟨[.ok ⟨.kwLet, "let", ⟨0, 3⟩⟩, .error ⟨.unrecognized '@', ⟨4, 1⟩⟩,
      .ok ⟨.integer, "5", ⟨6, 1⟩⟩, .ok ⟨.semicolon, ";", ⟨7, 1⟩⟩, .ok ⟨.ident, "y", ⟨9, 1⟩⟩,
      .ok ⟨.semicolon, ";", ⟨10, 1⟩⟩, .ok ⟨.rightParen, ")", ⟨12, 1⟩⟩,
      .error ⟨.unrecognized '#', ⟨14, 1⟩⟩], ⟨15, 0⟩⟩
    (∀ t : Token, .ok t ∈ s.items → ¬t.isEof) ∧
      ((parseStream s).program.length = 1 ∧ (parseStream s).errors.map SyntaxError.lexical? =
        [some ⟨.unrecognized '@', ⟨4, 1⟩⟩, none, some ⟨.unrecognized '#', ⟨14, 1⟩⟩, none]) ∧
      Transparent s := by
  intro s
  have htokens : ∀ t : Token, .ok t ∈ s.items → ¬t.isEof := by
    have hall : ∀ t ∈ s.tokens, ¬t.isEof := by decide
    exact fun t ht => hall t (TokenStream.mem_tokens_iff.mpr ht)
  exact ⟨htokens, by decide +kernel, parseStream_transparent s htokens⟩

end Monkey
