import Monkey.Proofs.Parse.Recognition

/-!
# Every program can be written

A tree without block statements, with legal names and with no integer below zero, has a text. One
is found with parentheses around each operator and its operands, a semicolon after each statement
and a blank in front of each word.
-/

namespace Monkey

open Scan (isWordStart isWordChar)

/-! ## Trees that have a text -/

/-- Letters, digits and underscores, no digit first, and not a keyword. -/
def LegalName (name : String) : Prop :=
  ∃ c cs, name = String.ofList (c :: cs) ∧ isWordStart c ∧ (∀ d ∈ cs, isWordChar d) ∧
    Kind.keyword? name = none

mutual
def Expr.Legal : Expr → Prop
  | .ident name _ => LegalName name
  | .int v _ => 0 ≤ v.toInt
  | .bool _ _ | .str _ _ => True
  | .unary _ operand _ => operand.Legal
  | .binary _ lhs rhs _ => lhs.Legal ∧ rhs.Legal
  | .cond test yes none _ => test.Legal ∧ yes.Legal
  | .cond test yes (some no) _ => test.Legal ∧ yes.Legal ∧ no.Legal
  | .fn params body _ => (∀ p ∈ params, LegalName p.name) ∧ body.Legal
  | .call callee args _ => callee.Legal ∧ Expr.LegalAll args
  | .array items _ => Expr.LegalAll items
  | .index object key _ => object.Legal ∧ key.Legal
  | .hash pairs _ => Expr.LegalPairs pairs

def Expr.LegalAll : List Expr → Prop
  | [] => True
  | e :: es => e.Legal ∧ Expr.LegalAll es

def Expr.LegalPairs : List (Expr × Expr) → Prop
  | [] => True
  | (key, value) :: ps => key.Legal ∧ value.Legal ∧ Expr.LegalPairs ps

def Stmt.Legal : Stmt → Prop
  | .bind target value _ => LegalName target.name ∧ value.Legal
  | .ret value _ => value.Legal
  | .expr value _ => value.Legal
  | .block _ => False

def Stmt.LegalAll : List Stmt → Prop
  | [] => True
  | s :: ss => s.Legal ∧ Stmt.LegalAll ss

def Block.Legal : Block → Prop
  | .mk stmts _ => Stmt.LegalAll stmts
end

theorem Stmt.legalAll_iff {ss : List Stmt} : Stmt.LegalAll ss ↔ ∀ s ∈ ss, s.Legal := by
  induction ss with
  | nil => simp [Stmt.LegalAll]
  | cons s ss ih => simp [Stmt.LegalAll, ih]

/-! ## Words -/

/-- Each of the words has a text. -/
def Writable (ws : List Word) : Prop :=
  ∀ w ∈ ws, ∃ cs, w.Written cs

namespace Writable

variable {ws vs : List Word}

theorem nil : Writable [] :=
  nofun

theorem cons {w : Word} {cs : List Char} (hw : w.Written cs) (h : Writable ws) :
    Writable (w :: ws) :=
  List.forall_mem_cons.mpr ⟨⟨cs, hw⟩, h⟩

theorem append (h : Writable ws) (h' : Writable vs) : Writable (ws ++ vs) :=
  List.forall_mem_append.mpr ⟨h, h'⟩

theorem mark {k : Kind} {text : String} (hk : k.text? = some text) (h : Writable ws) :
    Writable (.mark k :: ws) :=
  cons (.mark hk) h

theorem enclosed {k l : Kind} {text text' : String} (hk : k.text? = some text)
    (hl : l.text? = some text') (h : Writable ws) : Writable (.mark k :: ws ++ [.mark l]) :=
  append (mark hk h) (mark hl nil)

theorem ident {name : String} (hname : LegalName name) (h : Writable ws) :
    Writable (.ident name :: ws) := by
  obtain ⟨c, cs, rfl, hc, hcs, hkey⟩ := hname
  exact cons (.ident hc hcs hkey) h

end Writable

theorem Quotes.exists_of : ∀ vs : List Char, ∃ cs, Quotes cs vs
  | [] => ⟨[], .nil⟩
  | c :: vs => by
      obtain ⟨cs, h⟩ := Quotes.exists_of vs
      by_cases hquote : c = '"'
      · subst hquote
        exact ⟨'\\' :: '"' :: cs, .escaped rfl h⟩
      by_cases hslash : c = '\\'
      · subst hslash
        exact ⟨'\\' :: '\\' :: cs, .escaped rfl h⟩
      · exact ⟨c :: cs, .plain hquote hslash h⟩

theorem int64OfChars?_of_isDigit {c : Char} {cs : List Char} (hc : c.isDigit) :
    Text.int64OfChars? (c :: cs) =
      (Text.natOfDigits? (c :: cs) >>= fun n => Text.int64OfInt? n) := by
  unfold Text.int64OfChars?
  split
  · rename_i h
    cases h
    cases hc
  · rename_i h
    cases h
    cases hc
  · rfl

theorem int64OfInt?_toInt (v : Int64) : Text.int64OfInt? v.toInt = some v := by
  rw [Text.int64OfInt?, dif_pos ⟨v.minValue_le_toInt, v.toInt_le⟩, Int64.ofIntLE_toInt]

theorem Word.Written.toDigits (n : Nat) :
    (Word.integer (String.ofList (Nat.toDigits 10 n))).Written (Nat.toDigits 10 n) := by
  have hdigits : ∀ d ∈ Nat.toDigits 10 n, d.isDigit :=
    fun d hd => Nat.isDigit_of_mem_toDigits (by decide) (by decide) hd
  cases hds : Nat.toDigits 10 n with
  | nil => exact absurd hds Nat.toDigits_ne_nil
  | cons c cs => exact .integer (hds ▸ hdigits)

/-- The numeral of a number reads back as the number. -/
theorem int64?_toDigits {v : Int64} (h : 0 ≤ v.toInt) :
    Text.int64? (String.ofList (Nat.toDigits 10 v.toInt.toNat)) = some v := by
  have hdigits : ∀ d ∈ Nat.toDigits 10 v.toInt.toNat, d.isDigit :=
    fun d hd => Nat.isDigit_of_mem_toDigits (by decide) (by decide) hd
  have hnat := Nat.ofDigitChars_ten_toDigits (n := v.toInt.toNat)
  cases hds : Nat.toDigits 10 v.toInt.toNat with
  | nil => exact absurd hds Nat.toDigits_ne_nil
  | cons c cs =>
      rw [hds] at hdigits hnat
      have hall : (c :: cs).all Char.isDigit = true := List.all_eq_true.mpr hdigits
      have hread : Text.natOfDigits? (c :: cs) = some v.toInt.toNat := by
        rw [Text.natOfDigits?, hall, hnat]
        rfl
      rw [Text.int64?, String.toList_ofList,
        int64OfChars?_of_isDigit (hdigits c List.mem_cons_self), hread, Option.bind_eq_bind,
        Option.bind_some, Int.toNat_of_nonneg h, int64OfInt?_toInt]

/-! ## Symbols of operators -/

theorem UnaryOp.exists_symbol (op : UnaryOp) : ∃ k, UnaryOp.ofKind? k = some op ∧
    k.text? = some op.symbol ∧ ∀ c, (Word.mark k).joins c → c = '=' := by
  cases op with
  | not => exact ⟨.bang, rfl, rfl, fun _ hj => of_decide_eq_true hj⟩
  | negate => exact ⟨.minus, rfl, rfl, nofun⟩

theorem BinaryOp.exists_symbol (op : BinaryOp) :
    ∃ k, BinaryOp.ofKind? k = some op ∧ k.text? = some op.symbol := by
  cases op with
  | multiply => exact ⟨.asterisk, rfl, rfl⟩
  | divide => exact ⟨.slash, rfl, rfl⟩
  | add => exact ⟨.plus, rfl, rfl⟩
  | subtract => exact ⟨.minus, rfl, rfl⟩
  | lessThan => exact ⟨.lessThan, rfl, rfl⟩
  | lessEqual => exact ⟨.lessEqual, rfl, rfl⟩
  | greaterThan => exact ⟨.greaterThan, rfl, rfl⟩
  | greaterEqual => exact ⟨.greaterEqual, rfl, rfl⟩
  | equal => exact ⟨.equal, rfl, rfl⟩
  | notEqual => exact ⟨.notEqual, rfl, rfl⟩

/-! ## Trees -/

theorem Ident.spellings_writable {ps : List Ident} (h : ∀ p ∈ ps, LegalName p.name) :
    Writable (Ident.spellings ps) := by
  cases ps with
  | nil => exact .nil
  | cons p ps =>
      obtain ⟨hp, hps⟩ := List.forall_mem_cons.mp h
      refine .ident hp fun w hw => ?_
      obtain ⟨q, hq, hw⟩ := List.mem_flatMap.mp hw
      exact Writable.mark (k := .comma) rfl (.ident (hps q hq) .nil) w hw

mutual
/-- Words that spell the expression at any place. -/
theorem Expr.exists_spelled : (e : Expr) → e.Legal →
    ∃ ws, Writable ws ∧ ∀ n, Expr.Spelled false n e ws
  | .ident name _, h => ⟨_, .ident h .nil, fun _ => .ident⟩
  | .int v _, h => by
      exact ⟨_, .cons (.toDigits _) .nil, fun _ => .int (int64?_toDigits h)⟩
  | .bool true _, _ => ⟨_, .mark (k := .kwTrue) rfl .nil, fun _ => .yes⟩
  | .bool false _, _ => ⟨_, .mark (k := .kwFalse) rfl .nil, fun _ => .no⟩
  | .str text _, _ => by
      obtain ⟨cs, hcs⟩ := Quotes.exists_of text.toList
      have hw := Word.Written.string hcs
      rw [String.ofList_toList] at hw
      exact ⟨_, .cons hw .nil, fun _ => .str⟩
  | .unary op operand s, h => by
      obtain ⟨ws, hw, hs⟩ := operand.exists_spelled h
      obtain ⟨k, hk, htext, -⟩ := op.exists_symbol
      exact ⟨_, .enclosed (k := .leftParen) rfl rfl (.mark htext hw),
        fun _ => .grouped (.unary hk (Nat.zero_le _) (hs _))⟩
  | .binary op lhs rhs s, h => by
      obtain ⟨ls, hlw, hl⟩ := lhs.exists_spelled h.1
      obtain ⟨rs, hrw, hr⟩ := rhs.exists_spelled h.2
      obtain ⟨k, hk, htext⟩ := op.exists_symbol
      exact ⟨_, .enclosed (k := .leftParen) rfl rfl (hlw.append (.mark htext hrw)),
        fun _ => .grouped (.binary hk (Nat.zero_le _) (hl _) (hr _))⟩
  | .cond test yes none s, h => by
      obtain ⟨ts, htw, ht⟩ := test.exists_spelled h.1
      obtain ⟨ys, hyw, hy⟩ := yes.exists_spelled h.2
      have hcond := Expr.SpelledCond.mk (s := s) (ht 0) hy .absent
      refine ⟨_, ?_, fun _ => .cond hcond⟩
      simpa using Writable.mark (k := .kwIf) rfl
        (.mark (k := .leftParen) rfl (htw.append (.mark (k := .rightParen) rfl hyw)))
  | .cond test yes (some no) s, h => by
      obtain ⟨ts, htw, ht⟩ := test.exists_spelled h.1
      obtain ⟨ys, hyw, hy⟩ := yes.exists_spelled h.2.1
      obtain ⟨ns, hnw, hn⟩ := no.exists_spelled h.2.2
      have hcond := Expr.SpelledCond.mk (s := s) (ht 0) hy (.block hn)
      refine ⟨_, ?_, fun _ => .cond hcond⟩
      simpa using Writable.mark (k := .kwIf) rfl (.mark (k := .leftParen) rfl
        (htw.append (.mark (k := .rightParen) rfl (hyw.append (.mark (k := .kwElse) rfl hnw)))))
  | .fn params body s, h => by
      obtain ⟨ws, hw, hb⟩ := body.exists_spelled h.2
      refine ⟨_, ?_, fun _ => .fn hb⟩
      exact .mark (k := .kwFn) rfl (.mark (k := .leftParen) rfl
        ((Ident.spellings_writable h.1).append (.mark (k := .rightParen) rfl hw)))
  | .call callee args s, h => by
      obtain ⟨cs, hcw, hc⟩ := callee.exists_spelled h.1
      obtain ⟨ws, hw, hs⟩ := Expr.exists_spelledAll args h.2
      refine ⟨_, ?_, fun _ => .call (hc _) hs⟩
      simpa using hcw.append (.enclosed (k := .leftParen) (l := .rightParen) rfl rfl hw)
  | .array items s, h => by
      obtain ⟨ws, hw, hs⟩ := Expr.exists_spelledAll items h
      exact ⟨_, .enclosed (k := .leftBracket) rfl rfl hw, fun _ => .array hs⟩
  | .index object key s, h => by
      obtain ⟨os, how, ho⟩ := object.exists_spelled h.1
      obtain ⟨ks, hkw, hk⟩ := key.exists_spelled h.2
      refine ⟨_, ?_, fun _ => .index (ho _) (hk _)⟩
      simpa using how.append (.enclosed (k := .leftBracket) (l := .rightBracket) rfl rfl hkw)
  | .hash pairs s, h => by
      obtain ⟨ws, hw, hs⟩ := Expr.exists_spelledPairs pairs h
      exact ⟨_, .enclosed (k := .leftBrace) rfl rfl hw, fun _ => .hash hs⟩

theorem Expr.exists_spelledAll : (es : List Expr) → Expr.LegalAll es →
    ∃ ws, Writable ws ∧ Expr.SpelledList false es ws
  | [], _ => ⟨[], .nil, .nil⟩
  | e :: es, h => by
      obtain ⟨ws, hw, hs⟩ := e.exists_spelled h.1
      obtain ⟨vs, hv, htail⟩ := Expr.exists_spelledTail es h.2
      exact ⟨_, hw.append hv, .cons (hs _) htail⟩

theorem Expr.exists_spelledTail : (es : List Expr) → Expr.LegalAll es →
    ∃ ws, Writable ws ∧ Expr.SpelledTail false es ws
  | [], _ => ⟨[], .nil, .nil⟩
  | e :: es, h => by
      obtain ⟨ws, hw, hs⟩ := e.exists_spelled h.1
      obtain ⟨vs, hv, htail⟩ := Expr.exists_spelledTail es h.2
      exact ⟨_, .append (.mark (k := .comma) rfl hw) hv, .cons (hs _) htail⟩

theorem Expr.exists_spelledPairs : (ps : List (Expr × Expr)) → Expr.LegalPairs ps →
    ∃ ws, Writable ws ∧ Expr.SpelledPairs false ps ws
  | [], _ => ⟨[], .nil, .nil⟩
  | (key, value) :: ps, h => by
      obtain ⟨ks, hk, hks⟩ := key.exists_spelled h.1
      obtain ⟨vs, hv, hvs⟩ := value.exists_spelled h.2.1
      obtain ⟨ws, hw, hs⟩ := Expr.exists_spelledPairs ps h.2.2
      refine ⟨_, ?_, .cons (hks _) (hvs _) .written hs⟩
      simpa using hk.append (.mark (k := .colon) rfl (hv.append (.mark (k := .comma) rfl hw)))

theorem Stmt.exists_spelled : (s : Stmt) → s.Legal →
    ∃ ws, Writable ws ∧ Stmt.Spelled false s ws
  | .bind target value s, h => by
      obtain ⟨ws, hw, hs⟩ := value.exists_spelled h.2
      exact ⟨_, .mark (k := .kwLet) rfl (.ident h.1 (.mark (k := .assign) rfl hw)), .bind (hs _)⟩
  | .ret value s, h => by
      obtain ⟨ws, hw, hs⟩ := value.exists_spelled h
      exact ⟨_, .mark (k := .kwReturn) rfl hw, .ret (hs _)⟩
  | .expr value s, h => by
      obtain ⟨ws, hw, hs⟩ := value.exists_spelled h
      exact ⟨ws, hw, .expr (hs _)⟩
  | .block _, h => h.elim

theorem Stmt.exists_spelledAll : (ss : List Stmt) → Stmt.LegalAll ss →
    ∃ ws, Writable ws ∧ Stmt.SpelledList false ss ws
  | [], _ => ⟨[], .nil, .nil⟩
  | s :: ss, h => by
      obtain ⟨ws, hw, hs⟩ := s.exists_spelled h.1
      obtain ⟨vs, hv, hss⟩ := Stmt.exists_spelledAll ss h.2
      exact ⟨_, (hw.append (.mark (k := .semicolon) rfl .nil)).append hv, .cons hs .written hss⟩

theorem Block.exists_spelled : (b : Block) → b.Legal →
    ∃ ws, Writable ws ∧ Block.Spelled false b ws
  | .mk stmts s, h => by
      obtain ⟨ws, hw, hs⟩ := Stmt.exists_spelledAll stmts h
      exact ⟨_, .enclosed (k := .leftBrace) (l := .rightBrace) rfl rfl hw, .mk hs⟩
end

/-! ## Texts -/

theorem Word.not_joins_blank (w : Word) : ¬w.joins ' ' := by
  cases w with
  | mark k => cases k <;> nofun
  | _ => nofun

theorem Writable.exists_spells {ws : List Word} (h : Writable ws) :
    ∃ cs, Spells ws cs ∧ ∀ c ∈ cs.head?, c = ' ' := by
  induction ws with
  | nil => exact ⟨[], .nil .nil, nofun⟩
  | cons w ws ih =>
      obtain ⟨⟨cs, hw⟩, hws⟩ := List.forall_mem_cons.mp h
      obtain ⟨rest, hrest, hblank⟩ := ih hws
      have hgap : Gap [' '] := .blank rfl .nil
      refine ⟨_, .cons hgap hw (fun c hc => ?_) hrest, fun c hc => ?_⟩
      · rw [hblank c hc]
        exact w.not_joins_blank
      · exact (Option.some.inj hc).symm

/-- A program of legal statements has a text, so it is what some text is read as. -/
theorem Program.exists_spelled {p : Program} (h : Stmt.LegalAll p) :
    ∃ text, Program.Spelled p text := by
  obtain ⟨ws, hw, hs⟩ := Stmt.exists_spelledAll p h
  obtain ⟨cs, hcs, _⟩ := hw.exists_spells
  exact ⟨String.ofList cs, ws, hs, by rwa [String.toList_ofList]⟩

end Monkey
