import Monkey.Proofs.Parse.Lexical
import Monkey.Proofs.Parse.ProgramLockstep

/-!
# Lexical errors make no difference

The parser passes over lexical errors as if they were not there: what it reads, and the errors that
it finds itself, are those of the tokens alone. The lexical errors come among these as they stand
among the tokens, none of them twice.
-/

namespace Monkey

/-! ## Sifting -/

def Item.isToken : Item → Bool
  | .ok _ => true
  | .error _ => false

/-- The lexical error that the item is, if it is no token. -/
def Item.error? : Item → Option LexicalError
  | .ok _ => none
  | .error e => some e

/-- The tokens of the stream alone. -/
def TokenStream.sifted (s : TokenStream) : TokenStream :=
  { s with items := s.items.filter Item.isToken }

/-- The lexical error that is reported, if it is one. -/
def SyntaxError.lexical? (e : SyntaxError) : Option LexicalError :=
  match e.cause with
  | .lexical cause => some ⟨cause, e.span⟩
  | _ => none

theorem SyntaxError.lexical?_ofLexical (e : LexicalError) : (ofLexical e).lexical? = some e := rfl

theorem SyntaxError.Blames.lexical?_eq_none {e : SyntaxError} {t : Token} (h : e.Blames t) :
    e.lexical? = none := by
  obtain ⟨cause, span⟩ := e
  cases cause with
  | lexical cause => exact h.2.elim
  | _ => rfl

/-- The third list is made of the other two, each of them in its order. -/
inductive Interleaved {α : Type} : List α → List α → List α → Prop
  | nil : Interleaved [] [] []
  | left {xs ys zs : List α} (a : α) :
      Interleaved xs ys zs → Interleaved (xs ++ [a]) ys (zs ++ [a])
  | right {xs ys zs : List α} (a : α) :
      Interleaved xs ys zs → Interleaved xs (ys ++ [a]) (zs ++ [a])

namespace Interleaved

variable {es all : List SyntaxError} {ls : List LexicalError}

/-- Of the errors of both sorts, the lexical ones. -/
theorem filterMap_lexical? {fs : List SyntaxError} (h : Interleaved es fs all)
    (hes : ∀ e ∈ es, e.lexical? = none) (hfs : fs = ls.map .ofLexical) :
    all.filterMap SyntaxError.lexical? = ls := by
  induction h generalizing ls with
  | nil => exact (List.map_eq_nil_iff.mp hfs.symm).symm
  | left e _ ih =>
      obtain ⟨hes, he⟩ := List.forall_mem_append.mp hes
      rw [List.filterMap_append, ih hes hfs,
        List.filterMap_cons_none (he e List.mem_cons_self), List.filterMap_nil, List.append_nil]
  | right f _ ih =>
      obtain ⟨init, last, rfl, rfl, hlast⟩ := List.map_eq_append_iff.mp hfs.symm
      obtain ⟨l, rfl, rfl⟩ := List.map_eq_singleton_iff.mp hlast
      rw [List.filterMap_append, ih hes rfl]
      rfl

/-- And those of the other sort. -/
theorem filter_lexical? {fs : List SyntaxError} (h : Interleaved es fs all)
    (hes : ∀ e ∈ es, e.lexical? = none) (hfs : fs = ls.map .ofLexical) :
    all.filter (fun e => e.lexical? = none) = es := by
  induction h generalizing ls with
  | nil => rfl
  | left e _ ih =>
      obtain ⟨hes, he⟩ := List.forall_mem_append.mp hes
      rw [List.filter_append, ih hes hfs,
        List.filter_cons_of_pos (by simp [he e List.mem_cons_self]), List.filter_nil]
  | right f _ ih =>
      obtain ⟨init, last, rfl, rfl, hlast⟩ := List.map_eq_append_iff.mp hfs.symm
      obtain ⟨l, rfl, rfl⟩ := List.map_eq_singleton_iff.mp hlast
      rw [List.filter_append, ih hes rfl, List.filter_cons_of_neg (by
        simp [SyntaxError.lexical?_ofLexical]), List.filter_nil, List.append_nil]

end Interleaved

/-! ## Two places -/

namespace Cursor

/-- The first place is the second one among the tokens alone. Of the lexical errors `all`, the
second one has those reported that it has passed, among the errors that both have. -/
structure Sifts (all : List LexicalError) (c d : Cursor) : Prop where
  current : c.current = d.current
  peek : c.peek = d.peek
  rest : c.rest = d.rest.filter Item.isToken
  stop : c.stop = d.stop
  nesting : c.nesting = d.nesting
  errors : ∃ passed, all = passed ++ d.rest.filterMap Item.error? ∧
    Interleaved c.errors.toList (passed.map .ofLexical) d.errors.toList

variable {all : List LexicalError} {c d : Cursor} {stop : Span}

/-- Pulling a token passes the lexical errors in front of it. -/
theorem pull_sifts (stop : Span) (found : Array SyntaxError) (items : List Item) :
    ∀ (errors : Array SyntaxError) (passed : List LexicalError),
      all = passed ++ items.filterMap Item.error? →
      Interleaved found.toList (passed.map .ofLexical) errors.toList →
      let x := pull stop found (items.filter Item.isToken)
      let y := pull stop errors items
      x.1 = y.1 ∧ x.2.1 = y.2.1.filter Item.isToken ∧ ∃ passed,
        all = passed ++ y.2.1.filterMap Item.error? ∧
          Interleaved x.2.2.toList (passed.map .ofLexical) y.2.2.toList := by
  induction items with
  | nil => exact fun errors passed hall hmix => ⟨rfl, rfl, passed, hall, hmix⟩
  | cons i items ih =>
      intro errors passed hall hmix
      cases i with
      | ok t => exact ⟨rfl, rfl, passed, hall, hmix⟩
      | error e =>
          refine ih (errors.push (.ofLexical e)) (passed ++ [e]) ?_ ?_
          · rw [hall, List.append_assoc]
            rfl
          · rw [List.map_append, Array.toList_push]
            exact hmix.right _

theorem ofStream_sifts (s : TokenStream) :
    Sifts (s.items.filterMap Item.error?) (ofStream s.sifted) (ofStream s) := by
  obtain ⟨hcurrent, hrest, passed, hall, hmix⟩ :=
    pull_sifts s.stop #[] s.items #[] [] rfl .nil
  have h := pull_sifts s.stop _ _ _ passed hall hmix
  rw [← hrest] at h
  obtain ⟨hpeek, hrest, herrors⟩ := h
  exact ⟨hcurrent, hpeek, hrest, rfl, rfl, herrors⟩

theorem Sifts.advance (h : Sifts all c d) : Sifts all c.advance d.advance := by
  obtain ⟨passed, hall, hmix⟩ := h.errors
  obtain ⟨hpeek, hrest, herrors⟩ := pull_sifts d.stop c.errors d.rest d.errors passed hall hmix
  rw [← h.rest, ← h.stop] at hpeek hrest herrors
  refine ⟨h.peek, ?_, ?_, h.stop, ?_, ?_⟩
  · rw [Cursor.advance, Cursor.advance]
    simpa only [h.stop] using hpeek
  · simpa only [Cursor.advance, h.stop] using hrest
  · simp only [Cursor.advance, h.nesting, h.current]
  · simpa only [Cursor.advance, h.stop] using herrors

theorem Sifts.tokens_eq (h : Sifts all c d) : c.tokens = d.tokens := by
  have hrest : (d.rest.filter Item.isToken).filterMap Except.toOption =
      d.rest.filterMap Except.toOption := by
    rw [List.filterMap_filter]
    refine List.filterMap_congr fun i _ => ?_
    cases i <;> rfl
  rw [tokens, tokens, h.current, h.peek, h.rest, hrest]

theorem sifts_simulation (all : List LexicalError) : TotalSimulation Eq (Sifts all) where
  merge := by
    rintro a b _ _ rfl rfl
    rfl
  left h := by
    have hlen := List.length_filter_le Item.isToken
    simp only [left, h.rest]
    exact Nat.add_le_add_right (hlen _) 2
  current h := .of_eq h.current
  peek h _ := .of_eq h.peek
  advance h _ := h.advance
  step h := h.advance
  nesting h := h.nesting
  report := by
    intro c d e f he h
    obtain ⟨passed, hall, hmix⟩ := h.errors
    refine ⟨h.current, h.peek, h.rest, h.stop, h.nesting, passed, hall, ?_⟩
    simp only [report, Array.toList_push, he.eq]
    exact hmix.left f

end Cursor

/-! ## Whole streams -/

/-- Where the parser ends, no lexical errors lie ahead. -/
theorem Cursor.rest_program {s : TokenStream} {e : LexicalError}
    (htokens : ∀ t : Token, .ok t ∈ s.items → ¬t.isEof) (he : .error e ∈ s.items) :
    (ofStream s).program.2.rest = [] := by
  obtain ⟨hlast, hend⟩ := statementsWithin_keeps (fun _ h => h.advance) (fun _ f h => h.report f)
    _ _ (length_tokens_le_left _) (ofStream_heeds htokens he)
  exact hlast.current hend

/-- From the tokens alone the same program is read, and the errors are those found there with the
lexical errors of the stream among them. -/
theorem parseStream_sifted {s : TokenStream} (htokens : ∀ t : Token, .ok t ∈ s.items → ¬t.isEof) :
    (parseStream s).program = (parseStream s.sifted).program ∧
      Interleaved (parseStream s.sifted).errors
        ((s.items.filterMap Item.error?).map .ofLexical) (parseStream s).errors := by
  obtain ⟨hprogram, hlast⟩ :=
    Cursor.program_agree (Cursor.sifts_simulation _) (Cursor.ofStream_sifts s)
  obtain ⟨passed, hall, hmix⟩ := hlast.errors
  have hahead : (Cursor.ofStream s).program.2.rest.filterMap Item.error? = [] := by
    cases hitems : s.items.filterMap Item.error? with
    | nil => exact (List.append_eq_nil_iff.mp (hall.symm.trans hitems)).2
    | cons e es =>
        obtain ⟨i, hi, he⟩ := List.mem_filterMap.mp (hitems ▸ List.mem_cons_self)
        cases i with
        | ok t => cases he
        | error f =>
            rw [Cursor.rest_program htokens hi]
            rfl
  rw [hahead, List.append_nil] at hall
  exact ⟨hprogram.eq.symm, hall ▸ hmix⟩

end Monkey
