import Monkey.Proofs.Syntax.Erasure
import Monkey.Proofs.Syntax.Likeness
import Monkey.Syntax.Source

/-!
# Trees moved to other places

To move all nodes to where they are changes nothing, and the source text of a tree does not show
where its nodes are. Trees that are alike become the same tree where like places are moved to the
same place.
-/

namespace Monkey

variable (f : Span → Span)

@[simp] theorem Expr.span_respan (e : Expr) : (e.respan f).span = f e.span := by
  cases e with
  | cond _ _ no _ => cases no <;> simp [Expr.span]
  | _ => simp [Expr.span]

theorem Stmt.respanAll_eq_map (ss : List Stmt) :
    Stmt.respanAll f ss = ss.map (Stmt.respan f) := by
  induction ss with
  | nil => rfl
  | cons s ss ih => rw [Stmt.respanAll, ih, List.map_cons]

/-! ## Source text -/

mutual
@[simp] theorem Expr.source_respan : (e : Expr) → (e.respan f).source = e.source
  | .ident _ _ | .int _ _ | .bool _ _ | .str _ _ => by simp [Expr.source]
  | .unary _ e _ => by simp [Expr.source, e.source_respan]
  | .binary _ e e' _ => by simp [Expr.source, e.source_respan, e'.source_respan]
  | .cond e b none _ => by simp [Expr.source, e.source_respan, b.source_respan]
  | .cond e b (some b') _ => by
      simp [Expr.source, e.source_respan, b.source_respan, b'.source_respan]
  | .fn ps b _ => by simp [Expr.source, b.source_respan, Function.comp_def, Ident.respan]
  | .call e es _ => by simp [Expr.source, e.source_respan, Expr.sources_respan es]
  | .array es _ => by simp [Expr.source, Expr.sources_respan es]
  | .index e e' _ => by simp [Expr.source, e.source_respan, e'.source_respan]
  | .hash ps _ => by simp [Expr.source, Expr.pairSources_respan ps]

theorem Expr.sources_respan : (es : List Expr) →
    Expr.sources (Expr.respanAll f es) = Expr.sources es
  | [] => rfl
  | e :: es => by simp [Expr.sources, e.source_respan, Expr.sources_respan es]

theorem Expr.pairSources_respan : (ps : List (Expr × Expr)) →
    Expr.pairSources (Expr.respanPairs f ps) = Expr.pairSources ps
  | [] => rfl
  | (e, e') :: ps => by
      simp [Expr.pairSources, e.source_respan, e'.source_respan, Expr.pairSources_respan ps]

theorem Stmt.source_respan : (s : Stmt) → (s.respan f).source = s.source
  | .bind _ e _ => by simp [Stmt.source, e.source_respan, Ident.respan]
  | .ret e _ => by simp [Stmt.source, e.source_respan]
  | .expr e _ => by simp [Stmt.source, e.source_respan]
  | .block b => by simp [Stmt.source, b.source_respan]

theorem Stmt.joined_respan : (ss : List Stmt) → Stmt.joined (Stmt.respanAll f ss) = Stmt.joined ss
  | [] => rfl
  | s :: ss => by simp [Stmt.joined, s.source_respan, Stmt.joined_respan ss]

@[simp] theorem Block.source_respan : (b : Block) → (b.respan f).source = b.source
  | .mk ss _ => by simp [Block.source, Stmt.joined_respan ss]
end

/-! ## The same places -/

theorem Ident.respan_id : Ident.respan id = id := rfl

mutual
theorem Expr.respan_id : (e : Expr) → e.respan id = e
  | .ident _ _ | .int _ _ | .bool _ _ | .str _ _ => by simp
  | .unary _ e _ => by simp [e.respan_id]
  | .binary _ e e' _ => by simp [e.respan_id, e'.respan_id]
  | .cond e b none _ => by simp [e.respan_id, b.respan_id]
  | .cond e b (some b') _ => by simp [e.respan_id, b.respan_id, b'.respan_id]
  | .fn _ b _ => by simp [b.respan_id, Ident.respan_id]
  | .call e es _ => by simp [e.respan_id, Expr.respanAll_id es]
  | .array es _ => by simp [Expr.respanAll_id es]
  | .index e e' _ => by simp [e.respan_id, e'.respan_id]
  | .hash ps _ => by simp [Expr.respanPairs_id ps]

theorem Expr.respanAll_id : (es : List Expr) → Expr.respanAll id es = es
  | [] => by simp
  | e :: es => by simp [e.respan_id, Expr.respanAll_id es]

theorem Expr.respanPairs_id : (ps : List (Expr × Expr)) → Expr.respanPairs id ps = ps
  | [] => by simp
  | (e, e') :: ps => by simp [e.respan_id, e'.respan_id, Expr.respanPairs_id ps]

theorem Stmt.respan_id : (s : Stmt) → s.respan id = s
  | .bind _ e _ => by simp [e.respan_id, Ident.respan_id]
  | .ret e _ => by simp [e.respan_id]
  | .expr e _ => by simp [e.respan_id]
  | .block b => by simp [b.respan_id]

theorem Stmt.respanAll_id : (ss : List Stmt) → Stmt.respanAll id ss = ss
  | [] => by simp
  | s :: ss => by simp [s.respan_id, Stmt.respanAll_id ss]

theorem Block.respan_id : (b : Block) → b.respan id = b
  | .mk ss _ => by simp [Stmt.respanAll_id ss]
end

/-! ## Trees that are alike -/

variable {ρ : Span → Span → Prop} {f g : Span → Span}

/-- Related places are moved to the same place. -/
abbrev Joins (ρ : Span → Span → Prop) (f g : Span → Span) : Prop :=
  ∀ s t, ρ s t → f s = g t

theorem Ident.Like.respan_eq (hρ : Joins ρ f g) {p q : Ident} (h : Ident.Like ρ p q) :
    p.respan f = q.respan g := by
  rw [Ident.respan, Ident.respan, h.name, hρ _ _ h.span]

theorem Ident.respan_eq_of_forall₂ (hρ : Joins ρ f g) {ps qs : List Ident}
    (h : List.Forall₂ (Ident.Like ρ) ps qs) :
    ps.map (Ident.respan f) = qs.map (Ident.respan g) := by
  induction h with
  | nil => rfl
  | cons hp _ ih => rw [List.map_cons, List.map_cons, hp.respan_eq hρ, ih]

mutual
theorem Expr.Like.respan_eq (hρ : Joins ρ f g) {e e' : Expr} :
    Expr.Like ρ e e' → e.respan f = e'.respan g
  | .ident hs | .int hs | .bool hs | .str hs => by simp [hρ _ _ hs]
  | .unary he hs => by simp [he.respan_eq hρ, hρ _ _ hs]
  | .binary he he' hs => by simp [he.respan_eq hρ, he'.respan_eq hρ, hρ _ _ hs]
  | .cond he hb .none hs => by simp [he.respan_eq hρ, hb.respan_eq hρ, hρ _ _ hs]
  | .cond he hb (.some hb') hs => by
      simp [he.respan_eq hρ, hb.respan_eq hρ, hb'.respan_eq hρ, hρ _ _ hs]
  | .fn hps hb hs => by
      simp only [Expr.respan, hb.respan_eq hρ, Ident.respan_eq_of_forall₂ hρ hps, hρ _ _ hs]
  | .call he hes hs => by simp [he.respan_eq hρ, hes.respan_eq hρ, hρ _ _ hs]
  | .array hes hs => by simp [hes.respan_eq hρ, hρ _ _ hs]
  | .index he he' hs => by simp [he.respan_eq hρ, he'.respan_eq hρ, hρ _ _ hs]
  | .hash hps hs => by simp [hps.respan_eq hρ, hρ _ _ hs]

theorem Expr.LikeAll.respan_eq (hρ : Joins ρ f g) {es fs : List Expr} :
    Expr.LikeAll ρ es fs → Expr.respanAll f es = Expr.respanAll g fs
  | .nil => rfl
  | .cons he hes => by simp [he.respan_eq hρ, hes.respan_eq hρ]

theorem Expr.LikePairs.respan_eq (hρ : Joins ρ f g) {ps qs : List (Expr × Expr)} :
    Expr.LikePairs ρ ps qs → Expr.respanPairs f ps = Expr.respanPairs g qs
  | .nil => rfl
  | .cons he he' hps => by simp [he.respan_eq hρ, he'.respan_eq hρ, hps.respan_eq hρ]

theorem Stmt.Like.respan_eq (hρ : Joins ρ f g) {s t : Stmt} :
    Stmt.Like ρ s t → s.respan f = t.respan g
  | .bind hp he hs => by simp [hp.respan_eq hρ, he.respan_eq hρ, hρ _ _ hs]
  | .ret he hs => by simp [he.respan_eq hρ, hρ _ _ hs]
  | .expr he hs => by simp [he.respan_eq hρ, hρ _ _ hs]
  | .block hb => by simp [hb.respan_eq hρ]

theorem Stmt.LikeAll.respan_eq (hρ : Joins ρ f g) {ss ts : List Stmt} :
    Stmt.LikeAll ρ ss ts → Stmt.respanAll f ss = Stmt.respanAll g ts
  | .nil => rfl
  | .cons hs hss => by simp [hs.respan_eq hρ, hss.respan_eq hρ]

theorem Block.Like.respan_eq (hρ : Joins ρ f g) {b c : Block} :
    Block.Like ρ b c → b.respan f = c.respan g
  | .mk hss hs => by simp [hss.respan_eq hρ, hρ _ _ hs]
end

theorem Stmt.LikeAll.erase_eq {ss ts : List Stmt} (h : Stmt.LikeAll ρ ss ts) :
    Stmt.eraseAll ss = Stmt.eraseAll ts :=
  h.respan_eq fun _ _ _ => rfl

end Monkey
