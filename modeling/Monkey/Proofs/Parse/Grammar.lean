import Monkey.Syntax
import Monkey.Text.Decimal
import Monkey.Token

/-!
# The grammar

Which words spell which tree. A word is a token without its place. An operand stands in parentheses
where its operator binds more weakly than the place needs, and may stand in more of them anywhere.

The grammar is strict or lax. In the strict one a semicolon ends every statement of a list but
perhaps the last, so that a list of words spells one list of statements only; in the lax one all
semicolons may be left out.
-/

namespace Monkey

/-! ## Words -/

/-- Whether the kind of a token settles its text. -/
def Kind.isMark : Kind → Bool
  | .ident | .integer | .string | .eof => false
  | _ => true

theorem Kind.ne_eof_of_isMark {k : Kind} (h : k.isMark) : k ≠ .eof := by
  rintro rfl
  cases h

/-- The text of a mark or a keyword is settled by its kind. -/
inductive Word where
  | ident (name : String)
  | integer (digits : String)
  | string (text : String)
  | mark (kind : Kind)
deriving DecidableEq

def Word.kind : Word → Kind
  | ident _ => .ident
  | integer _ => .integer
  | string _ => .string
  | mark k => k

def Token.word (t : Token) : Word :=
  match t.kind with
  | .ident => .ident t.lexeme
  | .integer => .integer t.lexeme
  | .string => .string t.lexeme
  | k => .mark k

namespace Token

@[simp] theorem word_kind (t : Token) : t.word.kind = t.kind := by
  rw [word]
  split <;> simp_all [Word.kind]

theorem word_ident {t : Token} (h : t.kind = .ident) : t.word = .ident t.lexeme := by
  simp [word, h]

theorem word_integer {t : Token} (h : t.kind = .integer) : t.word = .integer t.lexeme := by
  simp [word, h]

theorem word_string {t : Token} (h : t.kind = .string) : t.word = .string t.lexeme := by
  simp [word, h]

theorem word_mark {t : Token} {k : Kind} (h : t.kind = k) (hk : k.isMark) : t.word = .mark k := by
  subst h
  rw [word]
  split <;> simp_all [Kind.isMark]

theorem not_isEof_of_kind {t : Token} {k : Kind} (h : t.kind = k) (hk : k ≠ .eof) : ¬t.isEof := by
  simp [isEof, h, hk]

end Token

/-- The kind of the first of some words; if there is none, the source ends here. -/
def headKind : List Word → Kind
  | [] => .eof
  | w :: _ => w.kind

@[simp] theorem headKind_cons (w : Word) (ws : List Word) : headKind (w :: ws) = w.kind := rfl

/-! ## Strength -/

namespace Precedence

/-- How strongly a token of a kind binds the operand on its left. -/
abbrev strength (k : Kind) : Nat :=
  (ofKind k).rank

theorem strength_le (k : Kind) : strength k ≤ index.rank := by
  cases k <;> decide

/-- The least strength of the operators that a parser at `p` leaves outside parentheses. A prefix
operator may stand where only stronger ones bind, for it has no operand on its left. -/
def floor (p : Precedence) : Nat :=
  min (p.rank + 1) unary.rank

theorem floor_le (p : Precedence) : p.floor ≤ unary.rank :=
  Nat.min_le_right _ _

end Precedence

/-! ## Trees -/

/-- A mark that may be missing only on a condition. -/
inductive Mark (k : Kind) (omissible : Prop) : List Word → Prop
  | written : Mark k omissible [.mark k]
  | omitted : omissible → Mark k omissible []

def Ident.spellings : List Ident → List Word
  | [] => []
  | p :: ps => .ident p.name :: ps.flatMap fun q => [.mark .comma, .ident q.name]

theorem Ident.length_le_spellings (ps : List Ident) : ps.length ≤ (spellings ps).length := by
  have h : ∀ qs : List Ident, qs.length ≤
      (qs.flatMap fun q => [Word.mark .comma, .ident q.name]).length := by
    intro qs
    induction qs with
    | nil => exact Nat.le_refl _
    | cons q qs ih =>
        simp only [List.flatMap_cons, List.length_append, List.length_cons]
        omega
  cases ps with
  | nil => exact Nat.le_refl _
  | cons p ps => exact Nat.succ_le_succ (h ps)

variable (lax : Bool)

mutual
/-- The words spell the expression, where operators of less strength than `n` stand in
parentheses. -/
inductive Expr.Spelled : Nat → Expr → List Word → Prop
  | ident {n name s} : Expr.Spelled n (.ident name s) [.ident name]
  | int {n digits v s} : Text.int64? digits = some v →
      Expr.Spelled n (.int v s) [.integer digits]
  | yes {n s} : Expr.Spelled n (.bool true s) [.mark .kwTrue]
  | no {n s} : Expr.Spelled n (.bool false s) [.mark .kwFalse]
  | str {n text s} : Expr.Spelled n (.str text s) [.string text]
  | grouped {n e ws} : Expr.Spelled 0 e ws →
      Expr.Spelled n e (.mark .leftParen :: ws ++ [.mark .rightParen])
  | unary {n k op e ws s} : UnaryOp.ofKind? k = some op → n ≤ Precedence.unary.rank →
      Expr.Spelled Precedence.unary.rank e ws → Expr.Spelled n (.unary op e s) (.mark k :: ws)
  | binary {n k op lhs rhs ls rs s} : BinaryOp.ofKind? k = some op → n ≤ Precedence.strength k →
      Expr.Spelled (Precedence.strength k) lhs ls →
      Expr.Spelled (Precedence.strength k + 1) rhs rs →
      Expr.Spelled n (.binary op lhs rhs s) (ls ++ .mark k :: rs)
  | cond {n e ws} : Expr.SpelledCond e ws → Expr.Spelled n e ws
  | fn {n ps body ws s} : Block.Spelled body ws →
      Expr.Spelled n (.fn ps body s)
        (.mark .kwFn :: .mark .leftParen :: Ident.spellings ps ++ .mark .rightParen :: ws)
  | call {n callee args cs ws s} :
      Expr.Spelled (Precedence.strength .leftParen) callee cs → Expr.SpelledList args ws →
      Expr.Spelled n (.call callee args s) (cs ++ .mark .leftParen :: ws ++ [.mark .rightParen])
  | array {n items ws s} : Expr.SpelledList items ws →
      Expr.Spelled n (.array items s) (.mark .leftBracket :: ws ++ [.mark .rightBracket])
  | index {n object key os ks s} :
      Expr.Spelled (Precedence.strength .leftBracket) object os → Expr.Spelled 0 key ks →
      Expr.Spelled n (.index object key s)
        (os ++ .mark .leftBracket :: ks ++ [.mark .rightBracket])
  | hash {n pairs ws s} : Expr.SpelledPairs pairs ws →
      Expr.Spelled n (.hash pairs s) (.mark .leftBrace :: ws ++ [.mark .rightBrace])

/-- A conditional without parentheses around it. -/
inductive Expr.SpelledCond : Expr → List Word → Prop
  | mk {test yes no ts ys ns s} : Expr.Spelled 0 test ts → Block.Spelled yes ys →
      Block.SpelledElse no ns →
      Expr.SpelledCond (.cond test yes no s)
        (.mark .kwIf :: .mark .leftParen :: ts ++ .mark .rightParen :: ys ++ ns)

/-- Expressions with commas between them. -/
inductive Expr.SpelledList : List Expr → List Word → Prop
  | nil : Expr.SpelledList [] []
  | cons {e es ws vs} : Expr.Spelled 0 e ws → Expr.SpelledTail es vs →
      Expr.SpelledList (e :: es) (ws ++ vs)

/-- Expressions with a comma in front of each. -/
inductive Expr.SpelledTail : List Expr → List Word → Prop
  | nil : Expr.SpelledTail [] []
  | cons {e es ws vs} : Expr.Spelled 0 e ws → Expr.SpelledTail es vs →
      Expr.SpelledTail (e :: es) (.mark .comma :: ws ++ vs)

/-- Keys and values; a comma may stand after the last pair. -/
inductive Expr.SpelledPairs : List (Expr × Expr) → List Word → Prop
  | nil : Expr.SpelledPairs [] []
  | cons {key value ps ks vs comma ws} : Expr.Spelled 0 key ks → Expr.Spelled 0 value vs →
      Mark .comma (ps = []) comma → Expr.SpelledPairs ps ws →
      Expr.SpelledPairs ((key, value) :: ps) (ks ++ .mark .colon :: vs ++ comma ++ ws)

/-- A statement without its semicolon. -/
inductive Stmt.Spelled : Stmt → List Word → Prop
  | bind {target value ws s} : Expr.Spelled 0 value ws →
      Stmt.Spelled (.bind target value s)
        (.mark .kwLet :: .ident target.name :: .mark .assign :: ws)
  | ret {value ws s} : Expr.Spelled 0 value ws →
      Stmt.Spelled (.ret value s) (.mark .kwReturn :: ws)
  | expr {value ws s} : Expr.Spelled 0 value ws → Stmt.Spelled (.expr value s) ws

inductive Stmt.SpelledList : List Stmt → List Word → Prop
  | nil : Stmt.SpelledList [] []
  | cons {t ts ws semicolon vs} : Stmt.Spelled t ws →
      Mark .semicolon (lax = true ∨ ts = []) semicolon → Stmt.SpelledList ts vs →
      Stmt.SpelledList (t :: ts) (ws ++ semicolon ++ vs)

inductive Block.Spelled : Block → List Word → Prop
  | mk {ts ws s} : Stmt.SpelledList ts ws →
      Block.Spelled ⟨ts, s⟩ (.mark .leftBrace :: ws ++ [.mark .rightBrace])

/-- What may follow the first block of a conditional; a block whose only statement is a conditional
may be spelled without its braces. -/
inductive Block.SpelledElse : Option Block → List Word → Prop
  | absent : Block.SpelledElse none []
  | block {b ws} : Block.Spelled b ws → Block.SpelledElse (some b) (.mark .kwElse :: ws)
  | elseIf {e ws s s'} : Expr.SpelledCond e ws →
      Block.SpelledElse (some ⟨[.expr e s], s'⟩) (.mark .kwElse :: ws)
end

/-- A statement with its semicolon, if it has one. -/
def Stmt.SpelledFull (s : Stmt) (ws : List Word) : Prop :=
  ∃ vs semicolon, Stmt.Spelled lax s vs ∧ Mark .semicolon True semicolon ∧ ws = vs ++ semicolon

variable {lax}

/-- What may stand where strong operators are asked for may stand where weaker ones are. -/
theorem Expr.Spelled.mono {m n : Nat} {e : Expr} {ws : List Word} (h : Expr.Spelled lax n e ws)
    (hm : m ≤ n) : Expr.Spelled lax m e ws := by
  cases h with
  | ident => exact .ident
  | int hv => exact .int hv
  | yes => exact .yes
  | no => exact .no
  | str => exact .str
  | grouped he => exact .grouped he
  | unary hk hn he => exact .unary hk (Nat.le_trans hm hn) he
  | binary hk hn hl hr => exact .binary hk (Nat.le_trans hm hn) hl hr
  | cond hc => exact .cond hc
  | fn hb => exact .fn hb
  | call hf ha => exact .call hf ha
  | array hi => exact .array hi
  | index ho hk => exact .index ho hk
  | hash hp => exact .hash hp

theorem Mark.of_true {k : Kind} {p : Prop} {ws : List Word} (h : Mark k True ws) (hp : p) :
    Mark k p ws := by
  cases h with
  | written => exact .written
  | omitted _ => exact .omitted hp

/-- In the lax grammar a list of statements takes each statement with or without its semicolon. -/
theorem Stmt.SpelledList.cons_full {s : Stmt} {ss : List Stmt} {ws vs : List Word}
    (hs : Stmt.SpelledFull true s ws) (hss : Stmt.SpelledList true ss vs) :
    Stmt.SpelledList true (s :: ss) (ws ++ vs) := by
  obtain ⟨us, semicolon, hs, hm, rfl⟩ := hs
  exact .cons hs (hm.of_true (.inl rfl)) hss

/-! ## First words -/

/-- Whether an expression may begin with a token of this kind. -/
def Kind.beginsOperand : Kind → Bool
  | .ident | .integer | .string | .kwTrue | .kwFalse | .bang | .minus | .leftParen | .kwIf | .kwFn
  | .leftBracket | .leftBrace => true
  | _ => false

theorem Kind.beginsOperand_of_unary {k : Kind} {op : UnaryOp} (h : UnaryOp.ofKind? k = some op) :
    k.beginsOperand := by
  cases k <;> first | rfl | cases h

theorem Expr.SpelledCond.head {e : Expr} {ws : List Word} (h : Expr.SpelledCond lax e ws) :
    ∃ vs, ws = .mark .kwIf :: vs := by
  obtain ⟨_, _, _⟩ := h
  exact ⟨_, rfl⟩

theorem Block.Spelled.head {b : Block} {ws : List Word} (h : Block.Spelled lax b ws) :
    ∃ vs, ws = .mark .leftBrace :: vs := by
  obtain ⟨_⟩ := h
  exact ⟨_, rfl⟩

theorem Expr.Spelled.head {n : Nat} {e : Expr} {ws : List Word} (h : Expr.Spelled lax n e ws) :
    ∃ w vs, ws = w :: vs ∧ w.kind.beginsOperand := by
  match h with
  | .ident => exact ⟨_, _, rfl, rfl⟩
  | .int _ => exact ⟨_, _, rfl, rfl⟩
  | .yes => exact ⟨_, _, rfl, rfl⟩
  | .no => exact ⟨_, _, rfl, rfl⟩
  | .str => exact ⟨_, _, rfl, rfl⟩
  | .grouped _ => exact ⟨_, _, rfl, rfl⟩
  | .unary hk _ _ => exact ⟨_, _, rfl, Kind.beginsOperand_of_unary hk⟩
  | .binary _ _ hl _ =>
      obtain ⟨w, vs, rfl, hw⟩ := Expr.Spelled.head hl
      exact ⟨w, _, rfl, hw⟩
  | .cond hc =>
      obtain ⟨vs, rfl⟩ := hc.head
      exact ⟨_, vs, rfl, rfl⟩
  | .fn _ => exact ⟨_, _, rfl, rfl⟩
  | .call hf _ =>
      obtain ⟨w, vs, rfl, hw⟩ := Expr.Spelled.head hf
      exact ⟨w, _, rfl, hw⟩
  | .array _ => exact ⟨_, _, rfl, rfl⟩
  | .index ho _ =>
      obtain ⟨w, vs, rfl, hw⟩ := Expr.Spelled.head ho
      exact ⟨w, _, rfl, hw⟩
  | .hash _ => exact ⟨_, _, rfl, rfl⟩

theorem Expr.Spelled.headKind_ne {n : Nat} {e : Expr} {ws : List Word} {k : Kind}
    (h : Expr.Spelled lax n e ws) (hk : k.beginsOperand = false) (r : List Word) :
    headKind (ws ++ r) ≠ k := by
  obtain ⟨w, vs, rfl, hw⟩ := h.head
  intro he
  rw [List.cons_append, headKind_cons] at he
  rw [he, hk] at hw
  cases hw

theorem Stmt.Spelled.headKind_ne {s : Stmt} {ws : List Word} {k : Kind}
    (h : Stmt.Spelled lax s ws) (hk : k.beginsOperand = false) (hlet : k ≠ .kwLet)
    (hret : k ≠ .kwReturn) (r : List Word) : headKind (ws ++ r) ≠ k := by
  cases h with
  | bind => exact hlet.symm
  | ret => exact hret.symm
  | expr he => exact he.headKind_ne hk r

theorem Stmt.Spelled.length_pos {s : Stmt} {ws : List Word} (h : Stmt.Spelled lax s ws) :
    0 < ws.length := by
  cases h with
  | bind => simp
  | ret => simp
  | expr he =>
      obtain ⟨w, vs, rfl, _⟩ := he.head
      simp

end Monkey
