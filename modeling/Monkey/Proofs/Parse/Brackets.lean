import Monkey.Proofs.Parse.Grammar

/-!
# Brackets

In what spells a tree the brackets are nested: every bracket that opens is closed by the one of its
kind that closes, behind words in which they are nested as well, and no other bracket stands there.
What a count of open braces or open parentheses makes of such words follows from this alone.
-/

namespace Monkey

/-! ## Nested brackets -/

/-- What closes a bracket that opens. -/
def Kind.counterpart? : Kind → Option Kind
  | .leftParen => some .rightParen
  | .leftBracket => some .rightBracket
  | .leftBrace => some .rightBrace
  | _ => none

def Kind.isBracket : Kind → Bool
  | .leftParen | .rightParen | .leftBracket | .rightBracket | .leftBrace | .rightBrace => true
  | _ => false

/-- Words in which brackets are nested. -/
inductive Bracketed : List Word → Prop
  | nil : Bracketed []
  | cons {w ws} : w.kind.isBracket = false → Bracketed ws → Bracketed (w :: ws)
  | enclosed {l r vs ws} : l.counterpart? = some r → Bracketed vs → Bracketed ws →
      Bracketed (.mark l :: vs ++ .mark r :: ws)

namespace Bracketed

variable {vs ws : List Word} {w : Word} {l r : Kind}

theorem append (hv : Bracketed vs) (hw : Bracketed ws) : Bracketed (vs ++ ws) := by
  induction hv with
  | nil => exact hw
  | cons h _ ih => exact .cons h ih
  | enclosed h hv _ _ ih =>
      rw [List.append_assoc]
      exact .enclosed h hv ih

theorem word (h : w.kind.isBracket = false) : Bracketed [w] :=
  .cons h .nil

/-- Words in brackets behind others, and nothing behind the brackets. -/
theorem suffixed (hv : Bracketed vs) (h : l.counterpart? = some r) (hw : Bracketed ws) :
    Bracketed (vs ++ .mark l :: ws ++ [.mark r]) := by
  rw [List.append_assoc]
  exact hv.append (.enclosed h hw .nil)

end Bracketed

/-! ## Spelled words -/

variable {lax : Bool} {ws : List Word}

theorem Mark.bracketed {k : Kind} {p : Prop} (h : Mark k p ws) (hk : k.isBracket = false) :
    Bracketed ws := by
  cases h with
  | written => exact .word hk
  | omitted => exact .nil

theorem Ident.bracketed_spellings (ps : List Ident) : Bracketed (Ident.spellings ps) := by
  have htail (qs : List Ident) :
      Bracketed (qs.flatMap fun q => [.mark .comma, .ident q.name]) := by
    induction qs with
    | nil => exact .nil
    | cons q qs ih => exact .cons rfl (.cons rfl ih)
  cases ps with
  | nil => exact .nil
  | cons p ps => exact .cons rfl (htail ps)

theorem UnaryOp.isBracket_eq_false {k : Kind} {op : UnaryOp} (h : UnaryOp.ofKind? k = some op) :
    k.isBracket = false := by
  cases k <;> first | rfl | cases h

theorem BinaryOp.isBracket_eq_false {k : Kind} {op : BinaryOp} (h : BinaryOp.ofKind? k = some op) :
    k.isBracket = false := by
  cases k <;> first | rfl | cases h

mutual
theorem Expr.Spelled.bracketed {l : Nat} {e : Expr} {ws : List Word} :
    Expr.Spelled lax l e ws → Bracketed ws
  | .ident | .int _ | .yes | .no | .str => .word rfl
  | .grouped he => .enclosed rfl he.bracketed .nil
  | .unary hk _ he => .cons (UnaryOp.isBracket_eq_false hk) he.bracketed
  | .binary hk _ hl hr => hl.bracketed.append (.cons (BinaryOp.isBracket_eq_false hk) hr.bracketed)
  | .cond hc => hc.bracketed
  | .fn hb => .cons rfl (.enclosed rfl (Ident.bracketed_spellings _) hb.bracketed)
  | .call hf ha => hf.bracketed.suffixed rfl ha.bracketed
  | .array hi => .enclosed rfl hi.bracketed .nil
  | .index ho hk => ho.bracketed.suffixed rfl hk.bracketed
  | .hash hp => .enclosed rfl hp.bracketed .nil

theorem Expr.SpelledCond.bracketed {e : Expr} {ws : List Word} :
    Expr.SpelledCond lax e ws → Bracketed ws
  | .mk ht hy hno => .append (.cons rfl (.enclosed rfl ht.bracketed hy.bracketed)) hno.bracketed

theorem Expr.SpelledList.bracketed {es : List Expr} {ws : List Word} :
    Expr.SpelledList lax es ws → Bracketed ws
  | .nil => .nil
  | .cons he hes => he.bracketed.append hes.bracketed

theorem Expr.SpelledTail.bracketed {es : List Expr} {ws : List Word} :
    Expr.SpelledTail lax es ws → Bracketed ws
  | .nil => .nil
  | .cons he hes => .append (.cons rfl he.bracketed) hes.bracketed

theorem Expr.SpelledPairs.bracketed {ps : List (Expr × Expr)} {ws : List Word} :
    Expr.SpelledPairs lax ps ws → Bracketed ws
  | .nil => .nil
  | .cons hk hv hm hps =>
      .append (.append (hk.bracketed.append (.cons rfl hv.bracketed)) (hm.bracketed rfl))
        hps.bracketed

theorem Stmt.Spelled.bracketed {s : Stmt} {ws : List Word} :
    Stmt.Spelled lax s ws → Bracketed ws
  | .bind he => .cons rfl (.cons rfl (.cons rfl he.bracketed))
  | .ret he => .cons rfl he.bracketed
  | .expr he => he.bracketed

theorem Stmt.SpelledList.bracketed {ss : List Stmt} {ws : List Word} :
    Stmt.SpelledList lax ss ws → Bracketed ws
  | .nil => .nil
  | .cons hs hm hss => (hs.bracketed.append (hm.bracketed rfl)).append hss.bracketed

theorem Block.Spelled.bracketed {b : Block} {ws : List Word} :
    Block.Spelled lax b ws → Bracketed ws
  | .mk hss => .enclosed rfl hss.bracketed .nil

theorem Block.SpelledElse.bracketed {b : Option Block} {ws : List Word} :
    Block.SpelledElse lax b ws → Bracketed ws
  | .absent => .nil
  | .block hb => .cons rfl hb.bracketed
  | .elseIf hc => .cons rfl hc.bracketed
end

theorem Stmt.SpelledFull.bracketed {s : Stmt} (h : Stmt.SpelledFull lax s ws) : Bracketed ws := by
  obtain ⟨vs, semicolon, hs, hm, rfl⟩ := h
  exact hs.bracketed.append (hm.bracketed rfl)

end Monkey
