import Monkey.Syntax

/-!
# Equality of trees

Trees are compared node by node, spans included. The comparison decides equality.
-/

namespace Monkey

mutual
def Expr.same : Expr → Expr → Bool
  | .ident a s, .ident b t => a = b && s = t
  | .int a s, .int b t => a = b && s = t
  | .bool a s, .bool b t => a = b && s = t
  | .str a s, .str b t => a = b && s = t
  | .unary o a s, .unary p b t => o = p && a.same b && s = t
  | .binary o a a' s, .binary p b b' t => o = p && a.same b && a'.same b' && s = t
  | .cond a a' none s, .cond b b' none t => a.same b && a'.same b' && s = t
  | .cond a a' (some a'') s, .cond b b' (some b'') t =>
    a.same b && a'.same b' && a''.same b'' && s = t
  | .fn ps a s, .fn qs b t => ps = qs && a.same b && s = t
  | .call a as s, .call b bs t => a.same b && Expr.sameAll as bs && s = t
  | .array as s, .array bs t => Expr.sameAll as bs && s = t
  | .index a a' s, .index b b' t => a.same b && a'.same b' && s = t
  | .hash as s, .hash bs t => Expr.samePairs as bs && s = t
  | _, _ => false

def Expr.sameAll : List Expr → List Expr → Bool
  | [], [] => true
  | a :: as, b :: bs => a.same b && Expr.sameAll as bs
  | _, _ => false

def Expr.samePairs : List (Expr × Expr) → List (Expr × Expr) → Bool
  | [], [] => true
  | (k, v) :: as, (l, w) :: bs => k.same l && v.same w && Expr.samePairs as bs
  | _, _ => false

def Stmt.same : Stmt → Stmt → Bool
  | .bind x a s, .bind y b t => x = y && a.same b && s = t
  | .ret a s, .ret b t => a.same b && s = t
  | .expr a s, .expr b t => a.same b && s = t
  | .block a, .block b => a.same b
  | _, _ => false

def Stmt.sameAll : List Stmt → List Stmt → Bool
  | [], [] => true
  | a :: as, b :: bs => a.same b && Stmt.sameAll as bs
  | _, _ => false

def Block.same : Block → Block → Bool
  | .mk as s, .mk bs t => Stmt.sameAll as bs && s = t
end

mutual
theorem Expr.same_iff : (a b : Expr) → (a.same b ↔ a = b)
  | .ident .., b => by cases b <;> simp [Expr.same]
  | .int .., b => by cases b <;> simp [Expr.same]
  | .bool .., b => by cases b <;> simp [Expr.same]
  | .str .., b => by cases b <;> simp [Expr.same]
  | .unary _ a _, b => by cases b <;> simp [Expr.same, Expr.same_iff a, and_assoc]
  | .binary _ a a' _, b => by
    cases b <;> simp [Expr.same, Expr.same_iff a, Expr.same_iff a', and_assoc]
  | .cond a y none _, b => by
    cases b with
    | cond _ _ n _ => cases n <;> simp [Expr.same, Expr.same_iff a, Block.same_iff y, and_assoc]
    | _ => simp [Expr.same]
  | .cond a y (some n) _, b => by
    cases b with
    | cond _ _ m _ =>
      cases m <;> simp [Expr.same, Expr.same_iff a, Block.same_iff y, Block.same_iff n, and_assoc]
    | _ => simp [Expr.same]
  | .fn _ a _, b => by cases b <;> simp [Expr.same, Block.same_iff a, and_assoc]
  | .call a as _, b => by
    cases b <;> simp [Expr.same, Expr.same_iff a, Expr.sameAll_iff as, and_assoc]
  | .array as _, b => by cases b <;> simp [Expr.same, Expr.sameAll_iff as]
  | .index a a' _, b => by
    cases b <;> simp [Expr.same, Expr.same_iff a, Expr.same_iff a', and_assoc]
  | .hash as _, b => by cases b <;> simp [Expr.same, Expr.samePairs_iff as]

theorem Expr.sameAll_iff : (as bs : List Expr) → (Expr.sameAll as bs ↔ as = bs)
  | [], bs => by cases bs <;> simp [Expr.sameAll]
  | a :: as, bs => by cases bs <;> simp [Expr.sameAll, Expr.same_iff a, Expr.sameAll_iff as]

theorem Expr.samePairs_iff : (as bs : List (Expr × Expr)) → (Expr.samePairs as bs ↔ as = bs)
  | [], bs => by cases bs <;> simp [Expr.samePairs]
  | _ :: _, [] => by simp [Expr.samePairs]
  | (k, v) :: as, (_, _) :: _ => by
    simp [Expr.samePairs, Expr.same_iff k, Expr.same_iff v, Expr.samePairs_iff as, and_assoc]

theorem Stmt.same_iff : (a b : Stmt) → (a.same b ↔ a = b)
  | .bind _ a _, b => by cases b <;> simp [Stmt.same, Expr.same_iff a, and_assoc]
  | .ret a _, b => by cases b <;> simp [Stmt.same, Expr.same_iff a]
  | .expr a _, b => by cases b <;> simp [Stmt.same, Expr.same_iff a]
  | .block a, b => by cases b <;> simp [Stmt.same, Block.same_iff a]

theorem Stmt.sameAll_iff : (as bs : List Stmt) → (Stmt.sameAll as bs ↔ as = bs)
  | [], bs => by cases bs <;> simp [Stmt.sameAll]
  | a :: as, bs => by cases bs <;> simp [Stmt.sameAll, Stmt.same_iff a, Stmt.sameAll_iff as]

theorem Block.same_iff : (a b : Block) → (a.same b ↔ a = b)
  | .mk as _, .mk _ _ => by simp [Block.same, Stmt.sameAll_iff as]
end

instance : DecidableEq Expr := fun a b => decidable_of_iff _ (Expr.same_iff a b)

instance : DecidableEq Stmt := fun a b => decidable_of_iff _ (Stmt.same_iff a b)

instance : DecidableEq Block := fun a b => decidable_of_iff _ (Block.same_iff a b)

end Monkey
