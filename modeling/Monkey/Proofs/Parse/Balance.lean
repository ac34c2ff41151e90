import Monkey.Proofs.Parse.Brackets
import Monkey.Proofs.Parse.Passage

/-!
# Braces in spelled words

Where brackets are nested, the nesting of braces is the same behind the words as in front of them.
Within a block the nesting is positive, and a semicolon there is not one that ends a statement of
the program. No expression ends with a semicolon.
-/

namespace Monkey

open Cursor (nestingAfter)

variable {lax : Bool} {w : Word} {ws vs : List Word}

/-! ## Balanced words -/

/-- The nesting behind some words is that in front of them. -/
def Balanced (ws : List Word) : Prop :=
  ∀ n, (ws.map Word.kind).foldl nestingAfter n = n

theorem nestingAfter_of_isBracket {k : Kind} (h : k.isBracket = false) (n : Nat) :
    nestingAfter n k = n := by
  cases k <;> first | rfl | cases h

theorem nestingAfter_counterpart {l r : Kind} (h : l.counterpart? = some r) (n : Nat) :
    nestingAfter (nestingAfter n l) r = n := by
  cases l <;> cases h <;> rfl

theorem Bracketed.balanced (h : Bracketed ws) : Balanced ws := by
  induction h with
  | nil => exact fun _ => rfl
  | cons hw _ ih =>
      intro n
      rw [List.map_cons, List.foldl_cons, nestingAfter_of_isBracket hw, ih]
  | enclosed hlr _ _ ihv ihw =>
      intro n
      rw [List.cons_append, List.map_cons, List.map_append, List.map_cons, List.foldl_cons,
        List.foldl_append, ihv, List.foldl_cons, Word.kind, Word.kind,
        nestingAfter_counterpart hlr, ihw]

/-! ## Last words -/

/-- The kind of the last of some words; if there is none, the source ends there. -/
def lastKind (ws : List Word) : Kind :=
  (ws.getLast?.map Word.kind).getD .eof

theorem lastKind_concat (ws : List Word) (w : Word) : lastKind (ws ++ [w]) = w.kind := by
  simp [lastKind]

theorem lastKind_append (h : ws ≠ []) (vs : List Word) : lastKind (vs ++ ws) = lastKind ws := by
  rw [lastKind, lastKind, List.getLast?_append, List.getLast?_eq_some_getLast h, Option.some_or]

theorem lastKind_append_ne {k : Kind} (hv : lastKind vs ≠ k) (hw : lastKind ws ≠ k) :
    lastKind (vs ++ ws) ≠ k := by
  by_cases h : ws = []
  · rwa [h, List.append_nil]
  · rwa [lastKind_append h]

theorem lastKind_cons_ne {k : Kind} (hw : w.kind ≠ k) (hws : lastKind ws ≠ k) :
    lastKind (w :: ws) ≠ k := by
  have hw' : lastKind [w] ≠ k := hw
  exact lastKind_append_ne hw' hws

theorem Mark.lastKind_ne {k l : Kind} {p : Prop} (h : Mark k p ws) (hk : k ≠ l ∧ .eof ≠ l) :
    lastKind ws ≠ l := by
  cases h with
  | written => exact hk.1
  | omitted => exact hk.2

theorem Block.Spelled.lastKind_ne {b : Block} (h : Block.Spelled lax b ws) :
    lastKind ws ≠ .semicolon := by
  obtain ⟨_⟩ := h
  rw [lastKind_concat]
  decide

mutual
theorem Expr.Spelled.lastKind_ne {l : Nat} {e : Expr} {ws : List Word} :
    Expr.Spelled lax l e ws → lastKind ws ≠ .semicolon
  | .ident | .int _ | .yes | .no | .str => nofun
  | .grouped _ | .array _ | .call _ _ | .index _ _ | .hash _ => by
      rw [lastKind_concat]
      decide
  | .unary hk _ he => by
      refine lastKind_cons_ne ?_ he.lastKind_ne
      rintro rfl
      cases hk
  | .binary hk _ _ hr => by
      rw [lastKind_append (List.cons_ne_nil _ _)]
      refine lastKind_cons_ne ?_ hr.lastKind_ne
      rintro rfl
      cases hk
  | .cond hc => hc.lastKind_ne
  | .fn hb => by
      rw [lastKind_append (List.cons_ne_nil _ _)]
      exact lastKind_cons_ne (by decide) hb.lastKind_ne

theorem Expr.SpelledCond.lastKind_ne {e : Expr} {ws : List Word} :
    Expr.SpelledCond lax e ws → lastKind ws ≠ .semicolon
  | .mk _ hy hno => by
      refine lastKind_append_ne ?_ hno.lastKind_ne
      rw [lastKind_append (List.cons_ne_nil _ _)]
      exact lastKind_cons_ne (by decide) hy.lastKind_ne

theorem Block.SpelledElse.lastKind_ne {b : Option Block} {ws : List Word} :
    Block.SpelledElse lax b ws → lastKind ws ≠ .semicolon
  | .absent => nofun
  | .block hb => lastKind_cons_ne (by decide) hb.lastKind_ne
  | .elseIf hc => lastKind_cons_ne (by decide) hc.lastKind_ne
end

theorem Expr.SpelledTail.lastKind_ne {es : List Expr} (h : Expr.SpelledTail lax es ws) :
    lastKind ws ≠ .semicolon := by
  induction es generalizing ws with
  | nil =>
      cases h
      decide
  | cons e es ih =>
      obtain _ | ⟨he, hes⟩ := h
      exact lastKind_append_ne (lastKind_cons_ne (by decide) he.lastKind_ne) (ih hes)

theorem Expr.SpelledPairs.lastKind_ne {ps : List (Expr × Expr)}
    (h : Expr.SpelledPairs lax ps ws) : lastKind ws ≠ .semicolon := by
  induction ps generalizing ws with
  | nil =>
      cases h
      decide
  | cons p ps ih =>
      obtain _ | ⟨_, hv, hm, hps⟩ := h
      refine lastKind_append_ne (lastKind_append_ne ?_ ?_) (ih hps)
      · rw [lastKind_append (List.cons_ne_nil _ _)]
        exact lastKind_cons_ne (by decide) hv.lastKind_ne
      · exact hm.lastKind_ne (by decide)

theorem Ident.lastKind_tail_ne {k : Kind} (ps : List Ident) (hk : .ident ≠ k ∧ .eof ≠ k) :
    lastKind (ps.flatMap fun p => [.mark .comma, .ident p.name]) ≠ k := by
  induction ps with
  | nil => exact hk.2
  | cons p ps ih => exact lastKind_append_ne hk.1 ih

/-! ## Places -/

namespace Cursor

variable {c c' : Cursor} {ts : List Token}

theorem Passes.nesting (h : Passes c ts c') :
    c'.nesting = (ts.map Token.kind).foldl nestingAfter c.nesting := by
  induction h with
  | refl => rfl
  | step _ _ ih => exact ih

/-- Behind balanced words the nesting is as in front of them. -/
theorem Passes.nesting_advance (h : Passes c ts c')
    (hws : Balanced (ts.map Token.word ++ [c'.current.word])) : c'.advance.nesting = c.nesting := by
  have hkinds : (ts.map Token.word).map Word.kind = ts.map Token.kind := by
    rw [List.map_map]
    exact List.map_congr_left fun t _ => t.word_kind
  have hend := hws c.nesting
  rw [List.map_append, List.foldl_append, hkinds, ← h.nesting, List.map_singleton, List.foldl_cons,
    List.foldl_nil, Token.word_kind] at hend
  exact hend

/-- The current token is neither the end of the source nor a semicolon. -/
def Live (c : Cursor) : Prop :=
  c.current.kind ≠ .eof ∧ c.current.kind ≠ .semicolon

/-- The current token does not end a statement outside all braces. -/
def Inside (c : Cursor) : Prop :=
  c.current.kind = .semicolon → 0 < c.nesting

theorem live_of_kind {k : Kind} (h : c.current.kind = k) (hk : k ≠ .eof ∧ k ≠ .semicolon) :
    c.Live := by
  rw [Live, h]
  exact hk

theorem Live.not_isEof (h : c.Live) : ¬c.current.isEof := by
  simpa [Token.isEof] using h.1

theorem Live.inside (h : c.Live) : c.Inside :=
  fun hk => absurd hk h.2

/-- The place at the last of some words. -/
theorem live_of_lastKind {ws : List Word} (hc : ¬c.current.isEof)
    (hws : lastKind (ws ++ [c.current.word]) ≠ .semicolon) : c.Live := by
  rw [lastKind_concat, Token.word_kind] at hws
  exact ⟨fun he => hc (by simp [Token.isEof, he]), hws⟩

end Cursor

end Monkey
