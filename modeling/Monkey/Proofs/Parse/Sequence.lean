import Monkey.Proofs.Parse.Locality

/-!
# Sources in a row

Sources that each end with a semicolon outside all braces, or are empty, can be put one after the
other: the programs follow one another, and so do the errors. And a source without errors that ends
with a semicolon ends with one outside all braces, for it closes all that it opens.
-/

namespace Monkey

namespace Cursor

variable {stop stop' : Span} {ts : List Token}

/-- The tokens can stand in front of others. -/
def Detached (ts : List Token) : Prop :=
  ts = [] ∨ Concludes 0 ts

theorem place_nil (stop : Span) (errors : Array SyntaxError) :
    (place stop errors 0 []).program = ([], place stop errors 0 []) :=
  statementsWithin_of_isEof _ rfl

/-- Detached tokens are parsed as if they stood alone, and so is what follows them, but for the
errors found before. -/
theorem Detached.program (h : Detached ts) (stop stop' : Span) (errors : Array SyntaxError)
    (bs : List Token) :
    (place stop errors 0 (ts ++ bs)).program =
      let found := errors ++ (place stop' #[] 0 ts).program.2.errors
      ((place stop' #[] 0 ts).program.1 ++ (place stop found 0 bs).program.1,
        (place stop found 0 bs).program.2) := by
  rcases h with rfl | h
  · simp [place_nil]
  have hcut : Cut stop stop' bs (place stop' errors 0 ts) (place stop errors 0 (ts ++ bs)) := .mk h
  have hlen : (place stop errors 0 (ts ++ bs)).tokens.length ≤ ts.length + bs.length := by
    rw [← List.length_append]
    exact length_tokens_place_le _
  obtain ⟨hprogram, herrors⟩ := place_program stop' errors 0 ts
  have hrun := hcut.statementsWithin ts.length (Nat.le_refl _) (length_tokens_place_le ts)
  rw [← program_eq hlen, ← program_eq (length_tokens_place_le ts), hprogram, herrors] at hrun
  exact hrun

end Cursor

open Cursor (Detached place)

/-- Detached sources in a row. -/
theorem parseStream_flatten (stop stop' : Span) {sources : List (List Token)}
    (h : ∀ ts ∈ sources, Detached ts) :
    parseStream ⟨sources.flatten.map .ok, stop⟩ =
      ⟨sources.flatMap fun ts => (parseStream ⟨ts.map .ok, stop'⟩).program,
        sources.flatMap fun ts => (parseStream ⟨ts.map .ok, stop'⟩).errors⟩ := by
  suffices hrun : ∀ errors : Array SyntaxError,
      (place stop errors 0 sources.flatten).program.1 =
          sources.flatMap (fun ts => (place stop' #[] 0 ts).program.1) ∧
        (place stop errors 0 sources.flatten).program.2.errors.toList = errors.toList ++
          sources.flatMap (fun ts => (place stop' #[] 0 ts).program.2.errors.toList) by
    obtain ⟨hprogram, herrors⟩ := hrun #[]
    simp only [parseStream_map, hprogram, herrors]
    rfl
  induction sources with
  | nil => exact fun errors => by simp [Cursor.place_nil]
  | cons ts sources ih =>
      obtain ⟨hts, hsources⟩ := List.forall_mem_cons.mp h
      intro errors
      obtain ⟨hprogram, herrors⟩ :=
        ih hsources (errors ++ (place stop' #[] 0 ts).program.2.errors)
      rw [List.flatten_cons, hts.program stop stop']
      simp only [hprogram, herrors, List.flatMap_cons, Array.toList_append, List.append_assoc,
        and_self]

/-- Where there is no error, the tokens spell the program. -/
theorem spelled_of_errors_nil {ts : List Token} {stop : Span} (hts : ∀ t ∈ ts, ¬t.isEof)
    (h : (parseStream ⟨ts.map .ok, stop⟩).errors = []) :
    Stmt.SpelledList true (parseStream ⟨ts.map .ok, stop⟩).program (ts.map Token.word) := by
  obtain ⟨hclean, htokens, herrors, -⟩ := Cursor.ofStream_of_tokens stop hts
  obtain ⟨es, hes, hacc⟩ := Cursor.statementsWithin_accounted _ _ hclean
    (Cursor.length_tokens_le_left _)
  rw [htokens] at hacc
  rw [parseStream_errors, hes, herrors] at h
  exact hacc.spelled (by simpa using h)

theorem Cursor.Detached.of_errors_nil {ts : List Token} {stop : Span} (hts : ∀ t ∈ ts, ¬t.isEof)
    (hlast : ts.getLast?.map Token.kind = some .semicolon)
    (h : (parseStream ⟨ts.map .ok, stop⟩).errors = []) : Detached ts := by
  refine .inr (.of_getLast? hts hlast ?_)
  have hbalanced := (spelled_of_errors_nil hts h).bracketed.balanced 0
  rw [List.map_map] at hbalanced
  rwa [List.map_congr_left fun t _ => t.word_kind] at hbalanced

end Monkey
