import Monkey.Proofs.Parse.ProgramLockstep
import Monkey.Proofs.Syntax.Respan

/-!
# Tokens alike but for their places

From tokens that are the same but for their places, a parser builds trees that are the same but for
theirs, and finds the same errors.
-/

namespace Monkey

/-! ## Streams -/

/-- Tokens that are alike, or lexical errors with the same cause. -/
inductive Item.Like (ρ : Span → Span → Prop) : Item → Item → Prop
  | ok {t u : Token} : t.Like ρ u → Item.Like ρ (.ok t) (.ok u)
  | error {cause : LexicalCause} {s t : Span} : ρ s t →
      Item.Like ρ (.error ⟨cause, s⟩) (.error ⟨cause, t⟩)

structure TokenStream.Like (ρ : Span → Span → Prop) (s t : TokenStream) : Prop where
  items : List.Forall₂ (Item.Like ρ) s.items t.items
  stop : ρ s.stop t.stop

variable {ρ : Span → Span → Prop}

namespace Cursor

structure Like (ρ : Span → Span → Prop) (c d : Cursor) : Prop where
  current : c.current.Like ρ d.current
  peek : c.peek.Like ρ d.peek
  rest : List.Forall₂ (Item.Like ρ) c.rest d.rest
  stop : ρ c.stop d.stop
  errors : List.Forall₂ (SyntaxError.Like ρ) c.errors.toList d.errors.toList
  nesting : c.nesting = d.nesting

variable {stop stop' : Span} {c d : Cursor}

theorem push_like {errors errors' : Array SyntaxError} {e f : SyntaxError}
    (herrors : List.Forall₂ (SyntaxError.Like ρ) errors.toList errors'.toList) (he : e.Like ρ f) :
    List.Forall₂ (SyntaxError.Like ρ) (errors.push e).toList (errors'.push f).toList := by
  rw [Array.toList_push, Array.toList_push]
  exact List.rel_append herrors (.cons he .nil)

theorem pull_like (hstop : ρ stop stop') {items items' : List Item}
    (hitems : List.Forall₂ (Item.Like ρ) items items') : ∀ {errors errors' : Array SyntaxError},
    List.Forall₂ (SyntaxError.Like ρ) errors.toList errors'.toList →
    (pull stop errors items).1.Like ρ (pull stop' errors' items').1 ∧
      List.Forall₂ (Item.Like ρ) (pull stop errors items).2.1 (pull stop' errors' items').2.1 ∧
      List.Forall₂ (SyntaxError.Like ρ) (pull stop errors items).2.2.toList
        (pull stop' errors' items').2.2.toList := by
  induction hitems with
  | nil => exact fun herrors => ⟨⟨rfl, rfl, hstop⟩, .nil, herrors⟩
  | cons hi hrest ih =>
      intro errors errors' herrors
      cases hi with
      | ok ht => exact ⟨ht, hrest, herrors⟩
      | error hs => exact ih (push_like herrors ⟨rfl, hs⟩)

theorem ofStream_like {s t : TokenStream} (h : s.Like ρ t) : (ofStream s).Like ρ (ofStream t) := by
  have hempty : List.Forall₂ (SyntaxError.Like ρ) #[].toList #[].toList := .nil
  obtain ⟨hcurrent, hrest, herrors⟩ := pull_like h.stop h.items hempty
  obtain ⟨hpeek, hrest, herrors⟩ := pull_like h.stop hrest herrors
  exact ⟨hcurrent, hpeek, hrest, h.stop, herrors, rfl⟩

theorem Like.advance (h : c.Like ρ d) : c.advance.Like ρ d.advance := by
  obtain ⟨hpeek, hrest, herrors⟩ := pull_like h.stop h.rest h.errors
  refine ⟨h.peek, hpeek, hrest, h.stop, herrors, ?_⟩
  simp only [Cursor.advance, h.nesting, h.current.kind]

theorem like_simulation (hmerge : ∀ {a b a' b' : Span}, ρ a b → ρ a' b' →
    ρ (a.merge a') (b.merge b')) : TotalSimulation ρ (Like ρ) where
  merge := hmerge
  left h := Nat.le_of_eq (congrArg (· + 2) h.rest.length_eq)
  current h := h.current
  peek h _ := h.peek
  advance h _ := h.advance
  step h := h.advance
  nesting h := h.nesting
  report he h := ⟨h.current, h.peek, h.rest, h.stop, push_like h.errors he, h.nesting⟩

end Cursor

theorem parseStream_like (hmerge : ∀ {a b a' b' : Span}, ρ a b → ρ a' b' →
    ρ (a.merge a') (b.merge b')) {s t : TokenStream} (h : s.Like ρ t) :
    Stmt.LikeAll ρ (parseStream s).program (parseStream t).program ∧
      List.Forall₂ (SyntaxError.Like ρ) (parseStream s).errors (parseStream t).errors := by
  obtain ⟨hprogram, hlast⟩ :=
    Cursor.program_agree (Cursor.like_simulation hmerge) (Cursor.ofStream_like h)
  exact ⟨hprogram, hlast.errors⟩

/-! ## No places -/

theorem Item.like_of_erase_eq {i j : Item} (h : i.erase = j.erase) :
    Item.Like (fun _ _ => True) i j := by
  cases i with
  | ok t =>
      cases j with
      | error f => cases h
      | ok u =>
          obtain ⟨hkind, hlexeme, -⟩ := Token.mk.inj (Except.ok.inj h)
          exact .ok ⟨hkind, hlexeme, trivial⟩
  | error e =>
      cases j with
      | ok u => cases h
      | error f =>
          obtain ⟨cause, s⟩ := e
          obtain ⟨cause', t⟩ := f
          obtain ⟨rfl, -⟩ := LexicalError.mk.inj (Except.error.inj h)
          exact .error trivial

/-- What is read from a stream depends on the kinds and lexemes of its tokens and the causes of its
lexical errors only. -/
theorem parseStream_erase {s t : TokenStream}
    (h : s.items.map Item.erase = t.items.map Item.erase) :
    (parseStream s).program.erase = (parseStream t).program.erase ∧
      (parseStream s).errors.map SyntaxError.erase =
        (parseStream t).errors.map SyntaxError.erase := by
  have hitems : List.Forall₂ (Item.Like fun _ _ => True) s.items t.items := by
    rw [← List.forall₂_eq_eq_eq, List.forall₂_map_left_iff, List.forall₂_map_right_iff] at h
    exact h.imp fun _ _ => Item.like_of_erase_eq
  obtain ⟨hprogram, herrors⟩ := parseStream_like (fun _ _ => trivial) ⟨hitems, trivial⟩
  refine ⟨hprogram.erase_eq, ?_⟩
  rw [← List.forall₂_eq_eq_eq, List.forall₂_map_left_iff, List.forall₂_map_right_iff]
  exact herrors.imp fun e f hef => by rw [SyntaxError.erase, SyntaxError.erase, hef.cause]

end Monkey
