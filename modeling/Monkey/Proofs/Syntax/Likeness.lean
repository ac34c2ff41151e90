import Mathlib.Data.List.Forall2
import Monkey.Syntax
import Monkey.Syntax.Error

/-!
# Trees alike but for their places

Two trees are alike if they are built in the same way and their spans are related, node by node. If
related spans are equal, so are trees that are alike.
-/

namespace Monkey

variable (ρ : Span → Span → Prop)

/-! ## Tokens and errors -/

structure Token.Like (t u : Token) : Prop where
  kind : t.kind = u.kind
  lexeme : t.lexeme = u.lexeme
  span : ρ t.span u.span

structure SyntaxError.Like (e f : SyntaxError) : Prop where
  cause : e.cause = f.cause
  span : ρ e.span f.span

structure Ident.Like (p q : Ident) : Prop where
  name : p.name = q.name
  span : ρ p.span q.span

/-! ## Trees -/

mutual
inductive Expr.Like : Expr → Expr → Prop
  | ident {name s t} : ρ s t → Expr.Like (.ident name s) (.ident name t)
  | int {v s t} : ρ s t → Expr.Like (.int v s) (.int v t)
  | bool {v s t} : ρ s t → Expr.Like (.bool v s) (.bool v t)
  | str {v s t} : ρ s t → Expr.Like (.str v s) (.str v t)
  | unary {op e f s t} : Expr.Like e f → ρ s t → Expr.Like (.unary op e s) (.unary op f t)
  | binary {op e e' f f' s t} : Expr.Like e f → Expr.Like e' f' → ρ s t →
      Expr.Like (.binary op e e' s) (.binary op f f' t)
  | cond {e f b c no no' s t} : Expr.Like e f → Block.Like b c → Block.LikeElse no no' → ρ s t →
      Expr.Like (.cond e b no s) (.cond f c no' t)
  | fn {ps qs b c s t} : List.Forall₂ (Ident.Like ρ) ps qs → Block.Like b c → ρ s t →
      Expr.Like (.fn ps b s) (.fn qs c t)
  | call {e f es fs s t} : Expr.Like e f → Expr.LikeAll es fs → ρ s t →
      Expr.Like (.call e es s) (.call f fs t)
  | array {es fs s t} : Expr.LikeAll es fs → ρ s t → Expr.Like (.array es s) (.array fs t)
  | index {e e' f f' s t} : Expr.Like e f → Expr.Like e' f' → ρ s t →
      Expr.Like (.index e e' s) (.index f f' t)
  | hash {ps qs s t} : Expr.LikePairs ps qs → ρ s t → Expr.Like (.hash ps s) (.hash qs t)

inductive Expr.LikeAll : List Expr → List Expr → Prop
  | nil : Expr.LikeAll [] []
  | cons {e f es fs} : Expr.Like e f → Expr.LikeAll es fs → Expr.LikeAll (e :: es) (f :: fs)

inductive Expr.LikePairs : List (Expr × Expr) → List (Expr × Expr) → Prop
  | nil : Expr.LikePairs [] []
  | cons {e e' f f' ps qs} : Expr.Like e f → Expr.Like e' f' → Expr.LikePairs ps qs →
      Expr.LikePairs ((e, e') :: ps) ((f, f') :: qs)

inductive Stmt.Like : Stmt → Stmt → Prop
  | bind {p q e f s t} : Ident.Like ρ p q → Expr.Like e f → ρ s t →
      Stmt.Like (.bind p e s) (.bind q f t)
  | ret {e f s t} : Expr.Like e f → ρ s t → Stmt.Like (.ret e s) (.ret f t)
  | expr {e f s t} : Expr.Like e f → ρ s t → Stmt.Like (.expr e s) (.expr f t)
  | block {b c} : Block.Like b c → Stmt.Like (.block b) (.block c)

inductive Stmt.LikeAll : List Stmt → List Stmt → Prop
  | nil : Stmt.LikeAll [] []
  | cons {a b as bs} : Stmt.Like a b → Stmt.LikeAll as bs → Stmt.LikeAll (a :: as) (b :: bs)

inductive Block.Like : Block → Block → Prop
  | mk {as bs s t} : Stmt.LikeAll as bs → ρ s t → Block.Like ⟨as, s⟩ ⟨bs, t⟩

inductive Block.LikeElse : Option Block → Option Block → Prop
  | none : Block.LikeElse none none
  | some {b c} : Block.Like b c → Block.LikeElse (some b) (some c)
end

variable {ρ}

theorem Expr.Like.span {e f : Expr} (h : Expr.Like ρ e f) : ρ e.span f.span := by
  cases h with
  | ident hs | int hs | bool hs | str hs => exact hs
  | unary _ hs | array _ hs | hash _ hs => exact hs
  | binary _ _ hs | fn _ _ hs | call _ _ hs | index _ _ hs => exact hs
  | cond _ _ _ hs => exact hs

/-! ## Equality -/

theorem SyntaxError.Like.eq {e f : SyntaxError} (h : SyntaxError.Like Eq e f) : e = f := by
  obtain ⟨_, _⟩ := e
  obtain ⟨_, _⟩ := f
  obtain ⟨rfl, rfl⟩ := h
  rfl

theorem Token.Like.of_eq {t u : Token} (h : t = u) : Token.Like Eq t u :=
  ⟨congrArg _ h, congrArg _ h, congrArg _ h⟩

theorem Ident.Like.eq {p q : Ident} (h : Ident.Like Eq p q) : p = q := by
  obtain ⟨_, _⟩ := p
  obtain ⟨_, _⟩ := q
  obtain ⟨rfl, rfl⟩ := h
  rfl

theorem Ident.eq_of_forall₂ {ps qs : List Ident} (h : List.Forall₂ (Ident.Like Eq) ps qs) :
    ps = qs :=
  List.forall₂_eq_eq_eq ▸ h.imp fun _ _ => Ident.Like.eq

mutual
theorem Expr.Like.eq {e f : Expr} : Expr.Like Eq e f → e = f
  | .ident hs => congrArg _ hs
  | .int hs => congrArg _ hs
  | .bool hs => congrArg _ hs
  | .str hs => congrArg _ hs
  | .unary he hs => by rw [he.eq, hs]
  | .binary he he' hs => by rw [he.eq, he'.eq, hs]
  | .cond he hb hno hs => by rw [he.eq, hb.eq, hno.eq, hs]
  | .fn hps hb hs => by rw [Ident.eq_of_forall₂ hps, hb.eq, hs]
  | .call he hes hs => by rw [he.eq, hes.eq, hs]
  | .array hes hs => by rw [hes.eq, hs]
  | .index he he' hs => by rw [he.eq, he'.eq, hs]
  | .hash hps hs => by rw [hps.eq, hs]

theorem Expr.LikeAll.eq {es fs : List Expr} : Expr.LikeAll Eq es fs → es = fs
  | .nil => rfl
  | .cons he hes => by rw [he.eq, hes.eq]

theorem Expr.LikePairs.eq {ps qs : List (Expr × Expr)} : Expr.LikePairs Eq ps qs → ps = qs
  | .nil => rfl
  | .cons he he' hps => by rw [he.eq, he'.eq, hps.eq]

theorem Stmt.Like.eq {s t : Stmt} : Stmt.Like Eq s t → s = t
  | .bind hp he hs => by rw [hp.eq, he.eq, hs]
  | .ret he hs => by rw [he.eq, hs]
  | .expr he hs => by rw [he.eq, hs]
  | .block hb => by rw [hb.eq]

theorem Stmt.LikeAll.eq {ss ts : List Stmt} : Stmt.LikeAll Eq ss ts → ss = ts
  | .nil => rfl
  | .cons hs hss => by rw [hs.eq, hss.eq]

theorem Block.Like.eq {b c : Block} : Block.Like Eq b c → b = c
  | .mk hss hs => by rw [hss.eq, hs]

theorem Block.LikeElse.eq {b c : Option Block} : Block.LikeElse Eq b c → b = c
  | .none => rfl
  | .some hb => by rw [hb.eq]
end

end Monkey
