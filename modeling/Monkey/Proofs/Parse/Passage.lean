import Monkey.Parse.Construct
import Monkey.Proofs.Parse.Grammar
import Monkey.Proofs.Sequencing

/-!
# Passing tokens

A parser moves over the tokens one by one. What a cursor has in front of it is a list of tokens;
to pass some of them is to take them off the front of that list.
-/

namespace Monkey

namespace Cursor

variable {c c' c'' : Cursor} {ts us : List Token}

/-! ## Tokens ahead -/

/-- The tokens among some items, up to the end. -/
def upToEof (ts : List Token) : List Token :=
  ts.takeWhile fun t => !t.isEof

/-- The tokens from the current one on, the end not counted. -/
def tokens (c : Cursor) : List Token :=
  upToEof (c.current :: c.peek :: c.rest.filterMap Except.toOption)

def words (c : Cursor) : List Word :=
  c.tokens.map Token.word

theorem upToEof_of_isEof {t : Token} (h : t.isEof) (ts : List Token) : upToEof (t :: ts) = [] := by
  simp [upToEof, h]

theorem upToEof_of_not {t : Token} (h : ¬t.isEof) (ts : List Token) :
    upToEof (t :: ts) = t :: upToEof ts := by
  simp [upToEof, h]

theorem upToEof_pull (stop : Span) (errors : Array SyntaxError) (items : List Item) :
    upToEof ((pull stop errors items).1 :: (pull stop errors items).2.1.filterMap Except.toOption)
      = upToEof (items.filterMap Except.toOption) := by
  induction items generalizing errors with
  | nil => rfl
  | cons i items ih =>
      cases i with
      | ok t => rfl
      | error e => exact ih _

theorem tokens_of_isEof (h : c.current.isEof) : c.tokens = [] :=
  upToEof_of_isEof h _

theorem tokens_eq_cons (h : ¬c.current.isEof) : c.tokens = c.current :: c.advance.tokens := by
  rw [tokens, upToEof_of_not h, tokens]
  congr 1
  change _ = upToEof (c.peek :: _)
  by_cases hq : c.peek.isEof
  · rw [upToEof_of_isEof hq, upToEof_of_isEof hq]
  · rw [upToEof_of_not hq, upToEof_of_not hq]
    exact congrArg _ (upToEof_pull c.stop c.errors c.rest).symm

theorem tokens_eq_nil_iff : c.tokens = [] ↔ c.current.isEof := by
  by_cases h : c.current.isEof
  · simp [h, tokens_of_isEof]
  · simp [h, tokens_eq_cons]

theorem isEof_of_length_le (h : c.tokens.length ≤ 0) : c.current.isEof :=
  tokens_eq_nil_iff.mp (List.length_eq_zero_iff.mp (Nat.le_zero.mp h))

theorem length_tokens_le_left (c : Cursor) : c.tokens.length ≤ c.left := by
  have h := (List.takeWhile_sublist (l := c.current :: c.peek :: c.rest.filterMap Except.toOption)
    fun t => !t.isEof).length_le
  have hf := List.length_filterMap_le Except.toOption c.rest
  simp only [tokens, upToEof, left, List.length_cons] at h ⊢
  omega

theorem advance_current (c : Cursor) : c.advance.current = c.peek := rfl

/-! ## Passing -/

/-- One place lies behind another, and these tokens lie between them. -/
inductive Passes : Cursor → List Token → Cursor → Prop
  | refl (c : Cursor) : Passes c [] c
  | step {c c' : Cursor} {ts : List Token} : ¬c.current.isEof → Passes c.advance ts c' →
      Passes c (c.current :: ts) c'

namespace Passes

theorem one (h : ¬c.current.isEof) : Passes c [c.current] c.advance :=
  .step h (.refl _)

theorem trans (h : Passes c ts c') (h' : Passes c' us c'') : Passes c (ts ++ us) c'' := by
  induction h with
  | refl => exact h'
  | step hc _ ih => exact .step hc (ih h')

theorem tokens_eq (h : Passes c ts c') : c.tokens = ts ++ c'.tokens := by
  induction h with
  | refl => rfl
  | step hc _ ih => rw [tokens_eq_cons hc, ih, List.cons_append]

theorem length_tokens_le (h : Passes c ts c') : c'.tokens.length ≤ c.tokens.length := by
  simp [h.tokens_eq]

end Passes

end Cursor

/-! ## Running parsers -/

namespace Parse

variable {c c' : Cursor}

@[simp] theorem current_apply (c : Cursor) : current c = .ok c.current c := rfl

@[simp] theorem peekKind_apply (c : Cursor) : peekKind c = .ok c.peek.kind c := rfl

@[simp] theorem advance_apply (c : Cursor) : advance c = .ok () c.advance := rfl

theorem get_apply (c : Cursor) : (get : Parse Cursor) c = .ok c c := rfl

theorem expect_of_eq {k : Kind} (h : c.peek.kind = k) : expect k c = .ok () c.advance := by
  rw [expect, bind_of_ok (get_apply c), if_pos h]
  rfl

theorem expect_of_ne {k : Kind} (h : c.peek.kind ≠ k) :
    expect k c = .error ⟨.unexpected k c.peek.kind, c.peek.span⟩ c := by
  rw [expect, bind_of_ok (get_apply c), if_neg h]
  rfl

theorem accept_of_eq {k : Kind} (h : c.peek.kind = k) : accept k c = .ok true c.advance := by
  rw [accept, bind_of_ok (peekKind_apply c), if_pos h, bind_of_ok (advance_apply c)]
  rfl

theorem accept_of_ne {k : Kind} (h : c.peek.kind ≠ k) : accept k c = .ok false c := by
  rw [accept, bind_of_ok (peekKind_apply c), if_neg h]
  rfl

variable {expr : Precedence → Parse Expr} {m : Nat}

/-! ### Operators -/

theorem operators_of_not_lt {n : Nat} {p : Precedence} {lhs : Expr}
    (h : ¬p < .ofKind c.peek.kind) : operators expr n p m lhs c = .ok lhs c := by
  cases m with
  | zero => rfl
  | succ m =>
      rw [operators, bind_of_ok (peekKind_apply c), if_neg h]
      rfl

/-! ### Statements -/

theorem stmt_of_let (h : c.current.kind = .kwLet) : stmt expr c = letStmt expr c := by
  rw [stmt, bind_of_ok (current_apply c), h]

theorem stmt_of_return (h : c.current.kind = .kwReturn) : stmt expr c = returnStmt expr c := by
  rw [stmt, bind_of_ok (current_apply c), h]

theorem stmt_of_ne (hl : c.current.kind ≠ .kwLet) (hr : c.current.kind ≠ .kwReturn) :
    stmt expr c = exprStmt expr c := by
  rw [stmt, bind_of_ok (current_apply c)]
  cases hk : c.current.kind
  case kwLet => exact absurd hk hl
  case kwReturn => exact absurd hk hr
  all_goals rfl

theorem stmts_of_eof (h : c.current.kind = .eof) : stmts expr m c = unclosed c := by
  cases m with
  | zero => rfl
  | succ m => rw [stmts, bind_of_ok (current_apply c), h]

theorem stmts_of_rightBrace (h : c.current.kind = .rightBrace) :
    stmts expr (m + 1) c = .ok [] c := by
  rw [stmts, bind_of_ok (current_apply c), h]
  rfl

theorem stmts_of_ne (he : c.current.kind ≠ .eof) (hb : c.current.kind ≠ .rightBrace) :
    stmts expr (m + 1) c = (do
      let s ← stmt expr
      advance
      let ss ← stmts expr m
      return s :: ss : Parse (List Stmt)) c := by
  rw [stmts, bind_of_ok (current_apply c)]
  cases hk : c.current.kind
  case eof => exact absurd hk he
  case rightBrace => exact absurd hk hb
  all_goals rfl

end Parse

end Monkey
