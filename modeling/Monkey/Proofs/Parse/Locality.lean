import Monkey.Proofs.Parse.ProgramLockstep

/-!
# Recovery is local to a statement

A semicolon outside all braces ends a statement, well-formed or not: no parser looks at what follows
it, and recovery does not pass over it. So the tokens up to it, and those behind it, can be parsed
apart from one another.
-/

namespace Monkey

open Parse (Agree Simulation)

namespace Cursor

variable {stop stop' : Span} {errors : Array SyntaxError} {n : Nat} {c d : Cursor} {t : Token}
  {ts bs : List Token}

/-! ## Places in a list of tokens -/

/-- The place at the first of some tokens, where `nesting` braces are open. -/
def place (stop : Span) (errors : Array SyntaxError) (nesting : Nat) : List Token → Cursor
  | [] => ⟨.eof stop, .eof stop, [], stop, errors, nesting⟩
  | [t] => ⟨t, .eof stop, [], stop, errors, nesting⟩
  | t :: u :: ts => ⟨t, u, ts.map .ok, stop, errors, nesting⟩

theorem ofStream_map (ts : List Token) (stop : Span) :
    ofStream ⟨ts.map .ok, stop⟩ = place stop #[] 0 ts := by
  rcases ts with _ | ⟨t, _ | ⟨u, ts⟩⟩ <;> rfl

@[simp] theorem place_current (ts : List Token) : (place stop errors n (t :: ts)).current = t := by
  cases ts <;> rfl

@[simp] theorem place_nesting (ts : List Token) : (place stop errors n ts).nesting = n := by
  rcases ts with _ | ⟨t, _ | ⟨u, ts⟩⟩ <;> rfl

@[simp] theorem place_errors (ts : List Token) : (place stop errors n ts).errors = errors := by
  rcases ts with _ | ⟨t, _ | ⟨u, ts⟩⟩ <;> rfl

theorem place_advance (ts : List Token) : (place stop errors n (t :: ts)).advance =
    place stop errors (nestingAfter n t.kind) ts := by
  rcases ts with _ | ⟨u, _ | ⟨v, ts⟩⟩ <;> rfl

theorem place_report (ts : List Token) (e : SyntaxError) :
    (place stop errors n ts).report e = place stop (errors.push e) n ts := by
  rcases ts with _ | ⟨t, _ | ⟨u, ts⟩⟩ <;> rfl

theorem place_left (ts : List Token) : (place stop errors n ts).left = ts.length - 2 + 2 := by
  rcases ts with _ | ⟨t, _ | ⟨u, ts⟩⟩ <;> simp [place, left]

theorem length_tokens_place_le (ts : List Token) :
    (place stop errors n ts).tokens.length ≤ ts.length := by
  induction ts generalizing n with
  | nil => exact Nat.le_refl 0
  | cons t ts ih =>
      by_cases h : (place stop errors n (t :: ts)).current.isEof
      · rw [tokens_of_isEof h]
        exact Nat.zero_le _
      · rw [tokens_eq_cons h, place_advance]
        exact Nat.succ_le_succ ih

/-! ## Up to a semicolon outside all braces -/

/-- Where `n` braces are open in front of the tokens, their last one is a semicolon outside all
braces. -/
inductive Concludes : Nat → List Token → Prop
  | last {t : Token} : t.kind = .semicolon → Concludes 0 [t]
  | cons {n : Nat} {t : Token} {ts : List Token} : ¬t.isEof →
      Concludes (nestingAfter n t.kind) ts → Concludes n (t :: ts)

theorem Concludes.of_getLast? (hts : ∀ t ∈ ts, ¬t.isEof)
    (hlast : ts.getLast?.map Token.kind = some .semicolon)
    (hdepth : (ts.map Token.kind).foldl nestingAfter n = 0) : Concludes n ts := by
  induction ts generalizing n with
  | nil => cases hlast
  | cons u ts ih =>
      obtain ⟨hu, hts⟩ := List.forall_mem_cons.mp hts
      cases ts with
      | nil =>
          have hu : u.kind = .semicolon := by simpa using hlast
          change nestingAfter n u.kind = 0 at hdepth
          rw [hu] at hdepth
          obtain rfl : n = 0 := hdepth
          exact .last hu
      | cons v ts => exact .cons hu (ih hts (by simpa using hlast) hdepth)

variable (stop stop' bs)

/-- Two places at the same tokens, up to a semicolon outside all braces; behind it the first source
ends, and the second goes on with the tokens `bs`. -/
inductive Cut : Cursor → Cursor → Prop
  | mk {errors : Array SyntaxError} {n : Nat} {ts : List Token} : Concludes n ts →
      Cut (place stop' errors n ts) (place stop errors n (ts ++ bs))

/-- The places behind that semicolon. -/
inductive Met : Cursor → Cursor → Prop
  | mk {errors : Array SyntaxError} : Met (place stop' errors 0 []) (place stop errors 0 bs)

variable {stop stop' bs}

namespace Cut

theorem not_isEof (h : Cut stop stop' bs c d) : ¬c.current.isEof := by
  obtain ⟨hts⟩ := h
  cases hts with
  | last ht => simp [Token.isEof, ht]
  | cons ht _ => simpa using ht

/-- Behind the current token is another one, or the end of the one source. -/
theorem advance (h : Cut stop stop' bs c d) :
    Cut stop stop' bs c.advance d.advance ∨ Met stop stop' bs c.advance d.advance := by
  obtain ⟨hts⟩ := h
  cases hts with
  | last ht =>
      rw [List.cons_append, place_advance, place_advance, ht]
      exact .inr .mk
  | cons _ hts =>
      rw [List.cons_append, place_advance, place_advance]
      exact .inl (.mk hts)

theorem advance_of_inside (h : Cut stop stop' bs c d) (hc : c.Inside) :
    Cut stop stop' bs c.advance d.advance := by
  obtain ⟨hts⟩ := h
  cases hts with
  | last ht => exact absurd (hc ht) (Nat.lt_irrefl 0)
  | cons _ hts =>
      rw [List.cons_append, place_advance, place_advance]
      exact .mk hts

theorem current_eq (h : Cut stop stop' bs c d) : c.current = d.current := by
  obtain ⟨hts⟩ := h
  cases hts <;> simp

theorem nesting_eq (h : Cut stop stop' bs c d) : c.nesting = d.nesting := by
  obtain ⟨hts⟩ := h
  rw [place_nesting, place_nesting]

theorem report (h : Cut stop stop' bs c d) (e : SyntaxError) :
    Cut stop stop' bs (c.report e) (d.report e) := by
  obtain ⟨hts⟩ := h
  rw [place_report, place_report]
  exact .mk hts

theorem simulation : Simulation Eq (Cut stop stop' bs) where
  merge := by
    rintro a b _ _ rfl rfl
    rfl
  left := by
    rintro _ _ ⟨hts⟩
    rw [place_left, place_left, List.length_append]
    omega
  current h := .of_eq h.current_eq
  peek h hc := .of_eq (h.advance_of_inside hc).current_eq
  advance h hc := h.advance_of_inside hc

/-- After an error the parser goes on at the semicolon or in front of it. -/
theorem synchronize (depth n : Nat) : ∀ {m : Nat} {c d : Cursor}, n ≤ m → c.tokens.length ≤ n →
    Cut stop stop' bs c d →
    Cut stop stop' bs (c.synchronize depth n) (d.synchronize depth m) ∨
      Met stop stop' bs (c.synchronize depth n) (d.synchronize depth m) := by
  induction n with
  | zero =>
      intro m c d _ hn h
      exact absurd (isEof_of_length_le hn) h.not_isEof
  | succ n ih =>
      intro m c d hm hn h
      obtain ⟨k, rfl⟩ := Nat.exists_eq_add_of_lt hm
      rw [Cursor.synchronize, Cursor.synchronize, ← h.current_eq, ← h.nesting_eq,
        if_neg h.not_isEof, if_neg h.not_isEof]
      split
      · exact h.advance
      rename_i hend
      have hinside : c.Inside := fun hk => by
        by_contra hopen
        exact hend ⟨hk, by omega⟩
      have h' := h.advance_of_inside hinside
      dsimp only
      rw [← h'.current_eq, ← h'.nesting_eq]
      split
      · exact .inl h'
      · have hlen := Parse.length_advance h.not_isEof
        exact ih (by omega) (by omega) h'

theorem recover (h : Cut stop stop' bs c d) (depth : Nat) (e : SyntaxError) :
    Cut stop stop' bs (c.recover depth e) (d.recover depth e) ∨
      Met stop stop' bs (c.recover depth e) (d.recover depth e) :=
  synchronize (m := d.left) (c := c.report e) (d := d.report e) depth c.left (simulation.left h)
    (length_tokens_le_left c) (h.report e)

end Cut

/-! ## Errors found before -/

theorem pull_append (stop : Span) (found errors : Array SyntaxError) (items : List Item) :
    pull stop (found ++ errors) items = ((pull stop errors items).1, (pull stop errors items).2.1,
      found ++ (pull stop errors items).2.2) := by
  induction items generalizing errors with
  | nil => rfl
  | cons i items ih =>
      cases i with
      | ok t => rfl
      | error e => rw [pull, pull, ← Array.append_push, ih]

/-- The errors that have been found make no difference. -/
theorem found_simulation (found : Array SyntaxError) :
    TotalSimulation Eq fun c d => d = { c with errors := found ++ c.errors } where
  merge := by
    rintro a b _ _ rfl rfl
    rfl
  left h := h ▸ Nat.le_refl _
  current h := .of_eq (h ▸ rfl)
  peek h _ := .of_eq (h ▸ rfl)
  advance := by
    rintro c _ rfl _
    simp [Cursor.advance, pull_append]
  step := by
    rintro c _ rfl
    simp [Cursor.advance, pull_append]
  nesting h := h ▸ rfl
  report := by
    rintro c _ e f he rfl
    simp [Cursor.report, he.eq]

theorem statementsWithin_of_le {m : Nat} (hm : n ≤ m) (h : c.tokens.length ≤ n) :
    c.statementsWithin n = c.statementsWithin m := by
  obtain ⟨hss, hlast⟩ := statementsWithin_agree (found_simulation #[]) n hm h (d := c) (by simp)
  exact Prod.ext hss.eq (by simpa using hlast.symm)

/-- Any bound that is not less than the number of tokens does. -/
theorem program_eq (h : c.tokens.length ≤ n) : c.program = c.statementsWithin n := by
  rw [program, ← statementsWithin_of_le (length_tokens_le_left c) (Nat.le_refl _),
    statementsWithin_of_le h (Nat.le_refl _)]

theorem place_program (stop : Span) (found : Array SyntaxError) (n : Nat) (ts : List Token) :
    (place stop found n ts).program.1 = (place stop #[] n ts).program.1 ∧
      (place stop found n ts).program.2.errors =
        found ++ (place stop #[] n ts).program.2.errors := by
  have h : place stop found n ts =
      { place stop #[] n ts with errors := found ++ (place stop #[] n ts).errors } := by
    rcases ts with _ | ⟨t, _ | ⟨u, ts⟩⟩ <;> simp [place]
  obtain ⟨hss, hlast⟩ := program_agree (found_simulation found) h
  exact ⟨hss.eq.symm, congrArg Cursor.errors hlast⟩

/-! ## Two sources, one after the other -/

/-- The program up to the semicolon is the first source's, and what is behind it is parsed as from
the start, but for the errors found before. -/
theorem Met.statementsWithin {n m : Nat} (h : Met stop stop' bs c d) (hm : bs.length ≤ m) :
    d.statementsWithin m = ((c.statementsWithin n).1 ++
        (place stop (c.statementsWithin n).2.errors 0 bs).program.1,
      (place stop (c.statementsWithin n).2.errors 0 bs).program.2) := by
  obtain ⟨⟩ := h
  rw [statementsWithin_of_isEof n rfl]
  exact (program_eq (Nat.le_trans (length_tokens_place_le bs) hm)).symm

theorem Cut.statementsWithin (n : Nat) : ∀ {m : Nat} {c d : Cursor}, n + bs.length ≤ m →
    c.tokens.length ≤ n → Cut stop stop' bs c d →
    d.statementsWithin m = ((c.statementsWithin n).1 ++
        (place stop (c.statementsWithin n).2.errors 0 bs).program.1,
      (place stop (c.statementsWithin n).2.errors 0 bs).program.2) := by
  induction n with
  | zero =>
      intro m c d _ hn h
      exact absurd (isEof_of_length_le hn) h.not_isEof
  | succ n ih =>
      intro m c d hm hn h
      obtain ⟨k, rfl⟩ : ∃ k, m = k + 1 := ⟨m - 1, by omega⟩
      have hc := h.not_isEof
      have hd : ¬d.current.isEof := h.current_eq ▸ hc
      have hsound := Parse.statement_sound c
      have hagree := Parse.statement_agree Cut.simulation h
      -- what is left to be parsed is in front of the semicolon or right behind it
      have rest {c' d' : Cursor} (hlen : c'.tokens.length ≤ n)
          (h' : Cut stop stop' bs c' d' ∨ Met stop stop' bs c' d') :=
        h'.elim (ih (m := k) (by omega) hlen) (Met.statementsWithin (n := n) · (m := k) (by omega))
      cases hr : Parse.statement c with
      | ok s c' =>
          rw [hr] at hsound hagree
          obtain ⟨ts, hp, h1, -⟩ := hsound
          obtain ⟨s', d', hr', hs, h'⟩ := hagree.of_ok
          have hlen := hp.length_tokens_le
          have hlen' := Parse.length_advance h1
          rw [statementsWithin_of_ok hc hr, statementsWithin_of_ok hd hr',
            rest (by omega) h'.advance, hs.eq, List.cons_append]
      | error e c' =>
          rw [hr] at hsound hagree
          obtain ⟨⟨ts, hp⟩, -⟩ := hsound
          obtain ⟨f, d', hr', he, h'⟩ := hagree.of_error
          have hlen := length_recover hc hp c.nesting e
          rw [statementsWithin_of_error hc hr, statementsWithin_of_error hd hr', ← h.nesting_eq,
            ← he.eq]
          exact rest (by omega) (h'.recover c.nesting e)

end Cursor

theorem parseStream_map (ts : List Token) (stop : Span) :
    parseStream ⟨ts.map .ok, stop⟩ = ⟨(Cursor.place stop #[] 0 ts).program.1,
      (Cursor.place stop #[] 0 ts).program.2.errors.toList⟩ := by
  rw [parseStream, Cursor.ofStream_map]

/-- How many braces are open behind some tokens; a brace closed too often is not counted. -/
def Token.nesting (ts : List Token) : Nat :=
  (ts.map Token.kind).foldl Cursor.nestingAfter 0

/-- Tokens that end with a semicolon outside all braces, and those that follow them, are parsed as
if they stood alone. -/
theorem parseStream_append (as bs : List Token) (stop stop' : Span) (has : ∀ t ∈ as, ¬t.isEof)
    (hlast : as.getLast?.map Token.kind = some .semicolon) (hnesting : Token.nesting as = 0) :
    parseStream ⟨(as ++ bs).map .ok, stop⟩ =
      let a := parseStream ⟨as.map .ok, stop'⟩
      let b := parseStream ⟨bs.map .ok, stop⟩
      ⟨a.program ++ b.program, a.errors ++ b.errors⟩ := by
  have hcut : Cursor.Cut stop stop' bs (.place stop' #[] 0 as) (.place stop #[] 0 (as ++ bs)) :=
    .mk (.of_getLast? has hlast hnesting)
  have hlen : (Cursor.place stop #[] 0 (as ++ bs)).tokens.length ≤ as.length + bs.length := by
    rw [← List.length_append]
    exact Cursor.length_tokens_place_le _
  have hlen' : (Cursor.place stop' #[] 0 as).tokens.length ≤ as.length :=
    Cursor.length_tokens_place_le as
  have happend := hcut.statementsWithin as.length (Nat.le_refl _) hlen'
  rw [← Cursor.program_eq hlen, ← Cursor.program_eq hlen'] at happend
  obtain ⟨hss, herrors⟩ :=
    Cursor.place_program stop (Cursor.place stop' #[] 0 as).program.2.errors 0 bs
  simp only [parseStream_map, happend, hss, herrors, Array.toList_append]

/-- The tokens of `let { ; } ;`, all of them given up for one error, and those of `y;`. -/
theorem parseStream_append_malformed :
    let as : List Token := [⟨.kwLet, "let", ⟨0, 3⟩⟩, ⟨.leftBrace, "\x7b", ⟨4, 1⟩⟩,
      ⟨.semicolon, ";", ⟨6, 1⟩⟩, ⟨.rightBrace, "\x7d", ⟨8, 1⟩⟩, ⟨.semicolon, ";", ⟨10, 1⟩⟩]
    let bs : List Token := [⟨.ident, "y", ⟨12, 1⟩⟩, ⟨.semicolon, ";", ⟨13, 1⟩⟩]
    let a := parseStream ⟨as.map .ok, ⟨11, 0⟩⟩
    let b := parseStream ⟨bs.map .ok, ⟨14, 0⟩⟩
    (∀ t ∈ as, ¬t.isEof) ∧ as.getLast?.map Token.kind = some .semicolon ∧ Token.nesting as = 0 ∧
      (a.program.length = 0 ∧ a.errors.length = 1) ∧ (b.program.length = 1 ∧ b.errors = []) ∧
      parseStream ⟨(as ++ bs).map .ok, ⟨14, 0⟩⟩ =
        ⟨a.program ++ b.program, a.errors ++ b.errors⟩ := by
  intro as bs a b
  have has : ∀ t ∈ as, ¬t.isEof := by decide
  exact ⟨has, rfl, rfl, by decide +kernel, by decide +kernel,
    parseStream_append as bs ⟨14, 0⟩ ⟨11, 0⟩ has rfl rfl⟩

end Monkey
