import Monkey.Proofs.Parse.Lockstep

/-!
# The recursion without its bound

The bounds of the parser cut nothing short. The parser of expressions is the one solution of the
equation that says how an expression is read from the expressions inside it, whatever bound, not
less than the number of tokens ahead, the constructs are given.
-/

namespace Monkey.Parse

variable {n m : Nat} {expr : Precedence → Parse Expr} {c d : Cursor}

/-- The parser reads an operand, and then operators, with itself for the expressions inside. -/
def Recursive (expr : Precedence → Parse Expr) : Prop :=
  ∀ (p : Precedence) (c : Cursor) (n : Nat), c.tokens.length ≤ n →
    expr p c = (do let lhs ← operand expr n; operators expr n p n lhs : Parse Expr) c

theorem eq_simulation : Simulation Eq Eq where
  merge := by
    rintro a b _ _ rfl rfl
    rfl
  left h := Nat.le_of_eq (congrArg _ h)
  current h := .of_eq (congrArg _ h)
  peek h _ := .of_eq (congrArg _ h)
  advance h _ := congrArg _ h

theorem Agree.eq {α : Type} {V : α → α → Prop} (hV : ∀ a b, V a b → a = b)
    {r r' : EStateM.Result SyntaxError Cursor α} (h : Agree Eq Eq V r r') : r = r' := by
  cases r with
  | ok a c =>
      obtain ⟨b, d, rfl, hab, rfl⟩ := h.of_ok
      rw [hV a b hab]
  | error e c =>
      obtain ⟨f, d, rfl, hef, rfl⟩ := h.of_error
      rw [hef.eq]

theorem Agree.expr_eq {r r' : EStateM.Result SyntaxError Cursor Expr}
    (h : Agree Eq Eq (Expr.Like Eq) r r') : r = r' :=
  h.eq fun _ _ => Expr.Like.eq

/-! ## Bounds -/

theorem expressionWithin_of_le (p : Precedence) (hnm : n ≤ m) (hn : c.tokens.length ≤ n) :
    expressionWithin n p c = expressionWithin m p c :=
  ((expressionWithin_lockstep eq_simulation n hnm).agree p rfl hn).expr_eq

/-- Any bound that is not less than the number of tokens does. -/
theorem expression_eq (p : Precedence) (hn : c.tokens.length ≤ n) :
    expression p c = expressionWithin n p c := by
  change expressionWithin c.left p c = _
  rw [← expressionWithin_of_le p c.length_tokens_le_left (Nat.le_refl _),
    expressionWithin_of_le p hn (Nat.le_refl _)]

theorem expression_sound (n : Nat) : Sound n expression :=
  fun p c _ => expressionWithin_sound c.left p c c.length_tokens_le_left

theorem expression_lockstep (n : Nat) : Lockstep Eq Eq n (expressionWithin n) expression where
  sound := expressionWithin_sound n
  agree p := by
    rintro c _ rfl hn
    rw [expression_eq p hn]
    exact (expressionWithin_lockstep eq_simulation n (Nat.le_refl n)).agree p rfl hn
  atEnd p {d} hd := expressionWithin_of_eof d.left p hd

/-- One step of the recursion, from one parser to another that does the same to fewer tokens. -/
theorem Lockstep.step (hL : Lockstep Eq Eq n (expressionWithin n) expr) (hnm : n ≤ m)
    (p : Precedence) (hn : c.tokens.length ≤ n + 1) :
    expressionWithin (n + 1) p c =
      (do let lhs ← operand expr m; operators expr m p m lhs : Parse Expr) c := by
  refine Agree.expr_eq (.bind (operand_sound hL.sound hn)
    (operand_agree eq_simulation hL hnm rfl hn) ?_)
  rintro lhs lhs' ts c1 d1 hp1 ⟨h1, hl⟩ hlhs hR1
  have hlen1 := hp1.length_tokens_le
  have hc1 := Cursor.live_of_lastKind h1 (hl p).lastKind_ne
  exact operators_agree eq_simulation hL hnm p n _ hnm hR1 hc1 (by omega) (by omega) hlhs (hl p)

theorem expression_recursive : Recursive expression := by
  intro p c n hn
  cases n with
  | zero =>
      have hend := current_of_length_le hn
      have hoperand : operand expression 0 c = noOperand c := operand_of_eof hend
      rw [expression_eq p hn, expressionWithin_of_eof 0 p hend,
        bind_of_error (hoperand.trans rfl)]
      rfl
  | succ n =>
      rw [expression_eq p hn]
      exact (expression_lockstep n).step (Nat.le_succ n) p hn

/-! ## One solution -/

theorem Recursive.lockstep (h : Recursive expr) (n : Nat) :
    Lockstep Eq Eq n (expressionWithin n) expr := by
  have hend (p : Precedence) {d : Cursor} (hd : d.current.kind = .eof) :
      expr p d = noOperand d := by
    have hoperand : operand expr d.tokens.length d = noOperand d := operand_of_eof hd
    rw [h p d _ (Nat.le_refl _), bind_of_error (hoperand.trans rfl)]
    rfl
  induction n with
  | zero =>
      refine ⟨expressionWithin_sound 0, ?_, hend⟩
      rintro p c _ rfl hn
      rw [hend p (current_of_length_le hn)]
      exact eq_simulation.noOperand rfl
  | succ n ih =>
      refine ⟨expressionWithin_sound (n + 1), ?_, hend⟩
      rintro p c _ rfl hn
      rw [h p c (n + 1) hn, ← ih.step (Nat.le_succ n) p hn]
      exact (expressionWithin_lockstep eq_simulation (n + 1) (Nat.le_refl _)).agree p rfl hn

/-- Nothing else is read in this way, so the recursion comes to an end from every place. -/
theorem Recursive.eq_expression (h : Recursive expr) : expr = expression := by
  funext p c
  exact ((h.lockstep c.left).agree p rfl c.length_tokens_le_left).expr_eq.symm

theorem statement_eq : statement = stmt expression := by
  funext c
  exact (stmt_agree eq_simulation (expression_lockstep c.left) rfl c.length_tokens_le_left).eq
    fun _ _ => Stmt.Like.eq

end Monkey.Parse
