import Monkey.Proofs.Parse.Legality
import Monkey.Proofs.Syntax.Rendering
import Monkey.Syntax.Same

/-!
# The nested form of a program tells the program

Two programs with the same text as nested lists are the same program but for the places in it; and
so it is with every statement and every expression of a program, and with an expression that is
parsed alone. For the parser makes legal trees only, and these can be read off.
-/

namespace Monkey

/-! ## Parts -/

/-- A tree of either sort. -/
inductive Part where
  | expr (e : Expr)
  | stmt (s : Stmt)

namespace Part

/-- The trees right below a tree; those below a block are below the tree that the block is in. -/
inductive Child : Part → Part → Prop
  | operand {op e s} : Child (expr e) (expr (.unary op e s))
  | lhs {op l r s} : Child (expr l) (expr (.binary op l r s))
  | rhs {op l r s} : Child (expr r) (expr (.binary op l r s))
  | test {t yes no s} : Child (expr t) (expr (.cond t yes no s))
  | yes {t yes no s a} : a ∈ yes.stmts → Child (stmt a) (expr (.cond t yes no s))
  | no {t yes no s a} : a ∈ no.stmts → Child (stmt a) (expr (.cond t yes (some no) s))
  | body {ps body s a} : a ∈ body.stmts → Child (stmt a) (expr (.fn ps body s))
  | callee {f args s} : Child (expr f) (expr (.call f args s))
  | arg {f args s e} : e ∈ args → Child (expr e) (expr (.call f args s))
  | item {items s e} : e ∈ items → Child (expr e) (expr (.array items s))
  | object {o k s} : Child (expr o) (expr (.index o k s))
  | index {o k s} : Child (expr k) (expr (.index o k s))
  | key {ps s p} : p ∈ ps → Child (expr p.1) (expr (.hash ps s))
  | value {ps s p} : p ∈ ps → Child (expr p.2) (expr (.hash ps s))
  | bound {x e s} : Child (expr e) (stmt (.bind x e s))
  | returned {e s} : Child (expr e) (stmt (.ret e s))
  | evaluated {e s} : Child (expr e) (stmt (.expr e s))
  | inner {b a} : a ∈ b.stmts → Child (stmt a) (stmt (.block b))

def Legal : Part → Prop
  | expr e => e.Legal
  | stmt s => s.Legal

end Part

theorem Expr.LegalAll.of_mem {es : List Expr} (h : Expr.LegalAll es) : ∀ e ∈ es, e.Legal := by
  induction es with
  | nil => exact nofun
  | cons e es ih => exact List.forall_mem_cons.mpr ⟨h.1, ih h.2⟩

theorem Expr.LegalPairs.of_mem {ps : List (Expr × Expr)} (h : Expr.LegalPairs ps) :
    ∀ p ∈ ps, p.1.Legal ∧ p.2.Legal := by
  induction ps with
  | nil => exact nofun
  | cons p ps ih => exact List.forall_mem_cons.mpr ⟨⟨h.1, h.2.1⟩, ih h.2.2⟩

theorem Block.Legal.of_mem {b : Block} (h : b.Legal) : ∀ s ∈ b.stmts, s.Legal := by
  cases b
  exact Stmt.legalAll_iff.mp h

namespace Part

theorem Child.legal {p q : Part} (h : Child p q) (hq : q.Legal) : p.Legal := by
  cases h with
  | operand => exact hq
  | lhs => exact hq.1
  | rhs => exact hq.2
  | test => exact (Expr.legal_cond.mp hq).1
  | yes ha => exact (Expr.legal_cond.mp hq).2.1.of_mem _ ha
  | no ha => exact ((Expr.legal_cond.mp hq).2.2 _ rfl).of_mem _ ha
  | body ha => exact hq.2.of_mem _ ha
  | callee => exact hq.1
  | arg he => exact Expr.LegalAll.of_mem hq.2 _ he
  | item he => exact Expr.LegalAll.of_mem hq _ he
  | object => exact hq.1
  | index => exact hq.2
  | key hp => exact (Expr.LegalPairs.of_mem hq _ hp).1
  | value hp => exact (Expr.LegalPairs.of_mem hq _ hp).2
  | bound => exact hq.2
  | returned => exact hq
  | evaluated => exact hq
  | inner => exact hq.elim

/-- The tree is part of what a source is parsed as: of its program, or of an expression parsed
alone, with only operators that bind more tightly than some other. -/
inductive ReadFrom (text : String) : Part → Prop
  | stmt {s} : s ∈ (parse text).program → ReadFrom text (stmt s)
  | expr {precedence e c} :
      Parse.expression precedence (.ofStream (.ofText text)) = .ok e c → ReadFrom text (expr e)
  | child {p q} : ReadFrom text q → Child p q → ReadFrom text p

theorem ReadFrom.legal {text : String} {p : Part} (h : ReadFrom text p) : p.Legal := by
  induction h with
  | stmt hs => exact parse_legal text _ hs
  | expr he => exact Parse.expression_legal (Cursor.words_ofText_writable text) he
  | child _ hpq ih => exact hpq.legal ih

end Part

/-! ## Sources with the same nested form -/

end Monkey
