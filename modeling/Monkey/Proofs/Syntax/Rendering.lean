import Monkey.Proofs.Parse.Expressible
import Monkey.Proofs.Source.Printed
import Monkey.Proofs.Syntax.Nested
import Monkey.Syntax.SExpr

/-!
# Trees can be read off their nested lists

The text of a tree is that of a nested list, whose first word tells what the node is. The words of
parts that are no nodes, such as parameters, stand in lists without such a word, so where a list
stands tells how it is to be read. Whoever reads it so gets the tree back, but for its places.
-/

namespace Monkey

open Nested (word quoted list)
open Scan (isWordStart isWordChar)

/-! ## Trees as nested lists -/

mutual
def Expr.nested : Expr → Nested
  | .ident name _ => word name
  | .int v _ => word (Text.ofInt64 v)
  | .bool v _ => word (toString v)
  | .str text _ => quoted text
  | .unary op operand _ => list [word op.symbol, operand.nested]
  | .binary op lhs rhs _ => list [word op.symbol, lhs.nested, rhs.nested]
  | .cond test yes none _ => list [word "if", test.nested, yes.nested]
  | .cond test yes (some no) _ => list [word "if", test.nested, yes.nested, no.nested]
  | .fn params body _ => list [word "fn", list (params.map (word ·.name)), body.nested]
  | .call callee args _ => list (word "call" :: callee.nested :: Expr.nestedAll args)
  | .array items _ => list (word "array" :: Expr.nestedAll items)
  | .index object key _ => list [word "index", object.nested, key.nested]
  | .hash pairs _ => list (word "hash" :: Expr.nestedPairs pairs)

def Expr.nestedAll : List Expr → List Nested
  | [] => []
  | e :: es => e.nested :: Expr.nestedAll es

def Expr.nestedPairs : List (Expr × Expr) → List Nested
  | [] => []
  | (key, value) :: ps => list [key.nested, value.nested] :: Expr.nestedPairs ps

def Stmt.nested : Stmt → Nested
  | .bind target value _ => list [word "let", word target.name, value.nested]
  | .ret value _ => list [word "return", value.nested]
  | .expr value _ => value.nested
  | .block body => body.nested

def Stmt.nestedAll : List Stmt → List Nested
  | [] => []
  | s :: ss => s.nested :: Stmt.nestedAll ss

def Block.nested : Block → Nested
  | .mk stmts _ => list (word "block" :: Stmt.nestedAll stmts)
end

/-! ## Texts -/

theorem Nested.texts_eq_intercalate (separator : Char) (xs : List Nested) :
    texts separator xs = [separator].intercalate (xs.map text) := by
  have htails : ∀ (x : Nested) (xs : List Nested),
      x.text ++ tails separator xs = [separator].intercalate ((x :: xs).map text) := by
    intro x xs
    induction xs generalizing x with
    | nil => simp [tails]
    | cons y ys ih => simpa [tails] using ih y
  cases xs with
  | nil => rfl
  | cons x xs => exact htails x xs

theorem Ident.toList_intercalate (ps : List Ident) :
    (" ".intercalate (ps.map (·.name))).toList = Nested.texts ' ' (ps.map (word ·.name)) := by
  rw [Nested.texts_eq_intercalate, String.toList_intercalate, List.map_map, List.map_map]
  rfl

mutual
theorem Expr.toList_sexpr : (e : Expr) → e.sexpr.toList = e.nested.text
  | .ident _ _ | .int _ _ | .bool _ _ | .str _ _ => rfl
  | .unary op operand _ => by
      simp [Expr.sexpr, Expr.nested, Nested.text, Nested.texts, Nested.tails, operand.toList_sexpr]
  | .binary op lhs rhs _ => by
      simp [Expr.sexpr, Expr.nested, Nested.text, Nested.texts, Nested.tails, lhs.toList_sexpr,
        rhs.toList_sexpr]
  | .cond test yes none _ => by
      simp [Expr.sexpr, Expr.nested, Nested.text, Nested.texts, Nested.tails, test.toList_sexpr,
        yes.toList_sexpr]
  | .cond test yes (some no) _ => by
      simp [Expr.sexpr, Expr.nested, Nested.text, Nested.texts, Nested.tails, test.toList_sexpr,
        yes.toList_sexpr, no.toList_sexpr]
  | .fn params body _ => by
      simp only [Expr.sexpr, String.toList_append, Ident.toList_intercalate, body.toList_sexpr]
      simp [Expr.nested, Nested.text, Nested.texts, Nested.tails]
  | .call callee args _ => by
      simp [Expr.sexpr, Expr.nested, Nested.text, Nested.texts, Nested.tails, callee.toList_sexpr,
        Expr.toList_sexprs args]
  | .array items _ => by
      simp [Expr.sexpr, Expr.nested, Nested.text, Nested.texts, Expr.toList_sexprs items]
  | .index object key _ => by
      simp [Expr.sexpr, Expr.nested, Nested.text, Nested.texts, Nested.tails, object.toList_sexpr,
        key.toList_sexpr]
  | .hash pairs _ => by
      simp [Expr.sexpr, Expr.nested, Nested.text, Nested.texts, Expr.toList_pairSexprs pairs]

theorem Expr.toList_sexprs : (es : List Expr) →
    (Expr.sexprs es).toList = Nested.tails ' ' (Expr.nestedAll es)
  | [] => rfl
  | e :: es => by
      simp [Expr.sexprs, Expr.nestedAll, Nested.tails, e.toList_sexpr, Expr.toList_sexprs es]

theorem Expr.toList_pairSexprs : (ps : List (Expr × Expr)) →
    (Expr.pairSexprs ps).toList = Nested.tails ' ' (Expr.nestedPairs ps)
  | [] => rfl
  | (key, value) :: ps => by
      simp [Expr.pairSexprs, Expr.nestedPairs, Nested.text, Nested.texts, Nested.tails,
        key.toList_sexpr, value.toList_sexpr, Expr.toList_pairSexprs ps]

theorem Stmt.toList_sexpr : (s : Stmt) → s.sexpr.toList = s.nested.text
  | .bind target value _ => by
      simp [Stmt.sexpr, Stmt.nested, Nested.text, Nested.texts, Nested.tails, value.toList_sexpr]
  | .ret value _ => by
      simp [Stmt.sexpr, Stmt.nested, Nested.text, Nested.texts, Nested.tails, value.toList_sexpr]
  | .expr value _ => value.toList_sexpr
  | .block body => body.toList_sexpr

theorem Stmt.toList_sexprs : (ss : List Stmt) →
    (Stmt.sexprs ss).toList = Nested.tails ' ' (Stmt.nestedAll ss)
  | [] => rfl
  | s :: ss => by
      simp [Stmt.sexprs, Stmt.nestedAll, Nested.tails, s.toList_sexpr, Stmt.toList_sexprs ss]

theorem Block.toList_sexpr : (b : Block) → b.sexpr.toList = b.nested.text
  | .mk stmts _ => by
      simp [Block.sexpr, Block.nested, Nested.text, Nested.texts, Stmt.toList_sexprs stmts]
end

theorem Program.toList_sexprs (p : Program) :
    (Program.sexprs p).toList = Nested.texts '\n' (Stmt.nestedAll p) := by
  have hmap : ∀ ss : List Stmt, Stmt.nestedAll ss = ss.map Stmt.nested := by
    intro ss
    induction ss with
    | nil => rfl
    | cons s ss ih => rw [Stmt.nestedAll, ih, List.map_cons]
  rw [Program.sexprs, String.toList_intercalate, Nested.texts_eq_intercalate, hmap, List.map_map,
    List.map_map]
  exact congrArg _ (List.map_congr_left fun s _ => s.toList_sexpr)

/-! ## Reading trees off -/

def UnaryOp.ofSymbol? (symbol : String) : Option UnaryOp :=
  [UnaryOp.not, .negate].find? (·.symbol = symbol)

def BinaryOp.ofSymbol? (symbol : String) : Option BinaryOp :=
  BinaryOp.all.find? (·.symbol = symbol)

/-- What a word by itself means. -/
def Expr.ofWord (text : String) : Expr :=
  if text = "true" then .bool true .zero
  else if text = "false" then .bool false .zero
  else
    match Text.int64? text with
    | some v => .int v .zero
    | none => .ident text .zero

namespace Nested

def param? : Nested → Option Ident
  | word name => some ⟨name, .zero⟩
  | _ => none

mutual
def expr? : Nested → Option Expr
  | word text => some (.ofWord text)
  | quoted text => some (.str text .zero)
  | list [word "if", test, yes] => return .cond (← test.expr?) (← yes.block?) none .zero
  | list [word "if", test, yes, no] =>
    return .cond (← test.expr?) (← yes.block?) (some (← no.block?)) .zero
  | list [word "fn", list params, body] =>
    return .fn (params.filterMap param?) (← body.block?) .zero
  | list (word "call" :: callee :: args) => return .call (← callee.expr?) (← exprs? args) .zero
  | list (word "array" :: items) => return .array (← exprs? items) .zero
  | list [word "index", object, key] => return .index (← object.expr?) (← key.expr?) .zero
  | list (word "hash" :: pairs) => return .hash (← pairs? pairs) .zero
  | list [word symbol, operand] =>
    return .unary (← UnaryOp.ofSymbol? symbol) (← operand.expr?) .zero
  | list [word symbol, lhs, rhs] =>
    return .binary (← BinaryOp.ofSymbol? symbol) (← lhs.expr?) (← rhs.expr?) .zero
  | list _ => none

def exprs? : List Nested → Option (List Expr)
  | [] => some []
  | x :: xs => return (← x.expr?) :: (← exprs? xs)

def pairs? : List Nested → Option (List (Expr × Expr))
  | [] => some []
  | list [key, value] :: xs => return (← key.expr?, ← value.expr?) :: (← pairs? xs)
  | _ => none

def stmts? : List Nested → Option (List Stmt)
  | [] => some []
  | list [word "let", word name, value] :: xs =>
    return .bind ⟨name, .zero⟩ (← value.expr?) .zero :: (← stmts? xs)
  | list [word "return", value] :: xs => return .ret (← value.expr?) .zero :: (← stmts? xs)
  | x :: xs => return .expr (← x.expr?) .zero :: (← stmts? xs)

def block? : Nested → Option Block
  | list (word "block" :: stmts) => return .mk (← stmts? stmts) .zero
  | _ => none
end

end Nested

/-! ## Words -/

theorem LegalName.ofWord {name : String} (h : LegalName name) :
    Expr.ofWord name = .ident name .zero := by
  obtain ⟨c, cs, rfl, hc, -, hkey⟩ := h
  have hne {k : Kind} {text : String} (hk : Kind.keyword? text = some k) :
      String.ofList (c :: cs) ≠ text := by
    rintro he
    rw [he, hk] at hkey
    cases hkey
  have hread : Text.int64? (String.ofList (c :: cs)) = none := by
    have hdigit : c.isDigit = false := by
      by_contra hd
      have hd := Scan.toNat_of_isDigit (Bool.eq_true_of_not_eq_false hd)
      have hs := Scan.toNat_of_isWordStart hc
      omega
    rw [Text.int64?, String.toList_ofList]
    unfold Text.int64OfChars?
    split
    · rename_i he
      cases he
      cases hc
    · rename_i he
      cases he
      cases hc
    · simp [Text.natOfDigits?, hdigit]
  rw [Expr.ofWord, if_neg (hne (k := .kwTrue) rfl), if_neg (hne (k := .kwFalse) rfl), hread]

theorem LegalName.isWord {name : String} (h : LegalName name) : Nested.isWord name := by
  obtain ⟨c, cs, rfl, hc, hcs, -⟩ := h
  refine Nested.isWord_of (p := fun d => isWordStart d || isWordChar d) ?_ ?_ rfl
  · rw [String.toList_ofList]
    exact List.cons_ne_nil _ _
  · rw [String.toList_ofList]
    exact List.forall_mem_cons.mpr ⟨by simp [hc], fun d hd => by simp [hcs d hd]⟩

theorem Text.isDigit_of_mem_ofInt64 {v : Int64} (h : 0 ≤ v.toInt) :
    ∀ c ∈ (ofInt64 v).toList, c.isDigit := by
  rw [toList_ofInt64_of_nonneg h]
  exact fun c hc => Nat.isDigit_of_mem_toDigits (by decide) (by decide) hc

theorem Expr.ofWord_ofInt64 {v : Int64} (h : 0 ≤ v.toInt) :
    Expr.ofWord (Text.ofInt64 v) = .int v .zero := by
  have hne {text : String} (ht : text.toList.all Char.isDigit = false) :
      Text.ofInt64 v ≠ text := by
    rintro rfl
    rw [List.all_eq_true.mpr (Text.isDigit_of_mem_ofInt64 h)] at ht
    cases ht
  have hread : Text.int64? (Text.ofInt64 v) = some v := by
    have hdigits := int64?_toDigits h
    rwa [← Text.toList_ofInt64_of_nonneg h, String.ofList_toList] at hdigits
  rw [Expr.ofWord, if_neg (hne (by decide)), if_neg (hne (by decide)), hread]

theorem Text.isWord_ofInt64 {v : Int64} (h : 0 ≤ v.toInt) : Nested.isWord (ofInt64 v) := by
  refine Nested.isWord_of ?_ (isDigit_of_mem_ofInt64 h) rfl
  rw [toList_ofInt64_of_nonneg h]
  exact Nat.toDigits_ne_nil

theorem UnaryOp.ofSymbol?_symbol (op : UnaryOp) : ofSymbol? op.symbol = some op := by
  cases op <;> decide

theorem BinaryOp.ofSymbol?_symbol (op : BinaryOp) : ofSymbol? op.symbol = some op := by
  cases op <;> decide

theorem UnaryOp.isWord_symbol (op : UnaryOp) : Nested.isWord op.symbol := by
  cases op <;> rfl

theorem BinaryOp.isWord_symbol (op : BinaryOp) : Nested.isWord op.symbol := by
  cases op <;> rfl

/-! ## The tree read off is the tree -/

/-- No expression looks like a `let` or a `return`. -/
theorem Expr.nested_ne (e : Expr) {head : String} {xs : List Nested}
    (h : head = "let" ∨ head = "return") : e.nested ≠ list (word head :: xs) := by
  intro he
  cases e with
  | ident | int | bool | str => cases he
  | unary op => cases op <;> cases he <;> exact absurd h (by decide)
  | binary op => cases op <;> cases he <;> exact absurd h (by decide)
  | cond test yes no => cases no <;> cases he <;> exact absurd h (by decide)
  | fn | call | array | index | hash =>
      cases he
      exact absurd h (by decide)

mutual
/-- What is read off the nested list of a legal tree is the tree. -/
theorem Expr.expr?_nested : (e : Expr) → e.Legal → e.nested.expr? = some e.erase
  | .ident name _, h => congrArg some h.ofWord
  | .int v _, h => congrArg some (Expr.ofWord_ofInt64 h)
  | .bool true _, _ | .bool false _, _ | .str _ _, _ => rfl
  | .unary op operand _, h => by
      have hop := op.ofSymbol?_symbol
      cases op <;> simp_all [Expr.nested, Nested.expr?, operand.expr?_nested h, UnaryOp.symbol]
  | .binary op lhs rhs _, h => by
      have hop := op.ofSymbol?_symbol
      cases op <;> simp_all [Expr.nested, Nested.expr?, lhs.expr?_nested h.1,
        rhs.expr?_nested h.2, BinaryOp.symbol]
  | .cond test yes none _, h => by
      simp [Expr.nested, Nested.expr?, test.expr?_nested h.1, yes.block?_nested h.2]
  | .cond test yes (some no) _, h => by
      simp [Expr.nested, Nested.expr?, test.expr?_nested h.1, yes.block?_nested h.2.1,
        no.block?_nested h.2.2]
  | .fn params body _, h => by
      have hparams : (params.map (word ·.name)).filterMap Nested.param? =
          params.map Ident.erase := by
        rw [List.filterMap_map]
        exact congrFun List.filterMap_eq_map params
      simp [Expr.nested, Nested.expr?, body.block?_nested h.2, hparams]
  | .call callee args _, h => by
      simp [Expr.nested, Nested.expr?, callee.expr?_nested h.1, Expr.exprs?_nestedAll args h.2]
  | .array items _, h => by
      simp [Expr.nested, Nested.expr?, Expr.exprs?_nestedAll items h]
  | .index object key _, h => by
      simp [Expr.nested, Nested.expr?, object.expr?_nested h.1, key.expr?_nested h.2]
  | .hash pairs _, h => by
      simp [Expr.nested, Nested.expr?, Expr.pairs?_nestedPairs pairs h]

theorem Expr.exprs?_nestedAll : (es : List Expr) → Expr.LegalAll es →
    Nested.exprs? (Expr.nestedAll es) = some (Expr.eraseAll es)
  | [], _ => rfl
  | e :: es, h => by
      simp [Expr.nestedAll, Nested.exprs?, e.expr?_nested h.1, Expr.exprs?_nestedAll es h.2]

theorem Expr.pairs?_nestedPairs : (ps : List (Expr × Expr)) → Expr.LegalPairs ps →
    Nested.pairs? (Expr.nestedPairs ps) = some (Expr.erasePairs ps)
  | [], _ => rfl
  | (key, value) :: ps, h => by
      simp [Expr.nestedPairs, Nested.pairs?, key.expr?_nested h.1, value.expr?_nested h.2.1,
        Expr.pairs?_nestedPairs ps h.2.2]

theorem Stmt.stmts?_nestedAll : (ss : List Stmt) → Stmt.LegalAll ss →
    Nested.stmts? (Stmt.nestedAll ss) = some (Stmt.eraseAll ss)
  | [], _ => rfl
  | .bind target value _ :: ss, h => by
      simp [Stmt.nestedAll, Stmt.nested, Nested.stmts?, Ident.respan, value.expr?_nested h.1.2,
        Stmt.stmts?_nestedAll ss h.2]
  | .ret value _ :: ss, h => by
      simp [Stmt.nestedAll, Stmt.nested, Nested.stmts?, value.expr?_nested h.1,
        Stmt.stmts?_nestedAll ss h.2]
  | .expr value _ :: ss, h => by
      rw [Stmt.nestedAll, Stmt.nested, Nested.stmts?, value.expr?_nested h.1,
        Stmt.stmts?_nestedAll ss h.2]
      · rfl
      · exact fun _ _ => value.nested_ne (.inl rfl)
      · exact fun _ => value.nested_ne (.inr rfl)
  | .block _ :: _, h => h.1.elim

theorem Block.block?_nested : (b : Block) → b.Legal → b.nested.block? = some b.erase
  | .mk stmts _, h => by
      simp [Block.nested, Nested.block?, Stmt.stmts?_nestedAll stmts h]
end

/-! ## Texts are read back -/

mutual
/-- The words of a legal tree have no character in them that ends words. -/
theorem Expr.proper_nested : (e : Expr) → e.Legal → e.nested.Proper
  | .ident _ _, h => h.isWord
  | .int _ _, h => Text.isWord_ofInt64 h
  | .bool true _, _ | .bool false _, _ => rfl
  | .str _ _, _ => trivial
  | .unary op operand _, h => ⟨op.isWord_symbol, operand.proper_nested h, trivial⟩
  | .binary op lhs rhs _, h =>
      ⟨op.isWord_symbol, lhs.proper_nested h.1, rhs.proper_nested h.2, trivial⟩
  | .cond test yes none _, h =>
      ⟨rfl, test.proper_nested h.1, yes.proper_nested h.2, trivial⟩
  | .cond test yes (some no) _, h =>
      ⟨rfl, test.proper_nested h.1, yes.proper_nested h.2.1, no.proper_nested h.2.2, trivial⟩
  | .fn params body _, h => by
      refine ⟨rfl, (Nested.properAll_iff _).mpr ?_, body.proper_nested h.2, trivial⟩
      exact List.forall_mem_map.mpr fun p hp => (h.1 p hp).isWord
  | .call callee args _, h =>
      ⟨rfl, callee.proper_nested h.1, Expr.proper_nestedAll args h.2⟩
  | .array items _, h => ⟨rfl, Expr.proper_nestedAll items h⟩
  | .index object key _, h =>
      ⟨rfl, object.proper_nested h.1, key.proper_nested h.2, trivial⟩
  | .hash pairs _, h => ⟨rfl, Expr.proper_nestedPairs pairs h⟩

theorem Expr.proper_nestedAll : (es : List Expr) → Expr.LegalAll es →
    Nested.ProperAll (Expr.nestedAll es)
  | [], _ => trivial
  | e :: es, h => ⟨e.proper_nested h.1, Expr.proper_nestedAll es h.2⟩

theorem Expr.proper_nestedPairs : (ps : List (Expr × Expr)) → Expr.LegalPairs ps →
    Nested.ProperAll (Expr.nestedPairs ps)
  | [], _ => trivial
  | (key, value) :: ps, h =>
      ⟨⟨key.proper_nested h.1, value.proper_nested h.2.1, trivial⟩,
        Expr.proper_nestedPairs ps h.2.2⟩

theorem Stmt.proper_nested : (s : Stmt) → s.Legal → s.nested.Proper
  | .bind _ value _, h => ⟨rfl, h.1.isWord, value.proper_nested h.2, trivial⟩
  | .ret value _, h => ⟨rfl, value.proper_nested h, trivial⟩
  | .expr value _, h => value.proper_nested h
  | .block _, h => h.elim

theorem Stmt.proper_nestedAll : (ss : List Stmt) → Stmt.LegalAll ss →
    Nested.ProperAll (Stmt.nestedAll ss)
  | [], _ => trivial
  | s :: ss, h => ⟨s.proper_nested h.1, Stmt.proper_nestedAll ss h.2⟩

theorem Block.proper_nested : (b : Block) → b.Legal → b.nested.Proper
  | .mk stmts _, h => ⟨rfl, Stmt.proper_nestedAll stmts h⟩
end

end Monkey
