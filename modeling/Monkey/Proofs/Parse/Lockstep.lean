import Monkey.Parse.Recovery
import Monkey.Proofs.Parse.Balance
import Monkey.Proofs.Parse.Soundness
import Monkey.Proofs.Syntax.Likeness

/-!
# Two parsers in lockstep

A parser looks at the current token and the one after it, and no further; and when it stands on a
semicolon that ends a statement of the program, it does not even look at the token after it. So two
places from which the same tokens are seen, as long as such a semicolon has not been reached, are
places from which the same happens: the trees built, or the errors, are alike, and the places
reached are again related. What bounds the recursion makes no difference, as long as it is no less
than the number of tokens ahead.
-/

namespace Monkey.Parse

open Cursor (Passes Live Inside live_of_kind)

/-! ## Simulations -/

/-- The tokens in sight of related places are alike, but for what lies behind a semicolon that ends
a statement of the program. -/
structure Simulation (ρ : Span → Span → Prop) (R : Cursor → Cursor → Prop) : Prop where
  merge {a b a' b' : Span} : ρ a b → ρ a' b' → ρ (a.merge a') (b.merge b')
  left {c d : Cursor} : R c d → c.left ≤ d.left
  current {c d : Cursor} : R c d → c.current.Like ρ d.current
  peek {c d : Cursor} : R c d → c.Inside → c.peek.Like ρ d.peek
  advance {c d : Cursor} : R c d → c.Inside → R c.advance d.advance

variable {ρ : Span → Span → Prop} {R : Cursor → Cursor → Prop}

/-- Two parsers ended alike: with related values, or with the same error, and at related places. -/
def Agree {α β : Type} (ρ : Span → Span → Prop) (R : Cursor → Cursor → Prop) (V : α → β → Prop) :
    EStateM.Result SyntaxError Cursor α → EStateM.Result SyntaxError Cursor β → Prop
  | .ok a c, .ok b d => V a b ∧ R c d
  | .error e c, .error f d => e.Like ρ f ∧ R c d
  | _, _ => False

section Rules

variable {α α' β β' : Type} {c d : Cursor} {V : α → α' → Prop} {W : β → β' → Prop}

namespace Agree

theorem pure {a : α} {a' : α'} (hV : V a a') (h : R c d) :
    Agree ρ R V ((Pure.pure a : Parse α) c) ((Pure.pure a' : Parse α') d) :=
  ⟨hV, h⟩

theorem of_ok {a : α} {r : EStateM.Result SyntaxError Cursor α'} (h : Agree ρ R V (.ok a c) r) :
    ∃ b d, r = .ok b d ∧ V a b ∧ R c d := by
  cases r with
  | ok b d => exact ⟨b, d, rfl, h⟩
  | error => exact h.elim

theorem of_error {e : SyntaxError} {r : EStateM.Result SyntaxError Cursor α'}
    (h : Agree ρ R V (.error e c) r) : ∃ f d, r = .error f d ∧ e.Like ρ f ∧ R c d := by
  cases r with
  | ok => exact h.elim
  | error f d => exact ⟨f, d, rfl, h⟩

theorem bind {x : Parse β} {x' : Parse β'} {f : β → Parse α} {f' : β' → Parse α'}
    {Q : β → List Token → Cursor → Prop} (hout : Outcome c Q (x c)) (hx : Agree ρ R W (x c) (x' d))
    (hf : ∀ b b' ts c' d', Passes c ts c' → Q b ts c' → W b b' → R c' d' →
      Agree ρ R V (f b c') (f' b' d')) :
    Agree ρ R V ((x >>= f) c) ((x' >>= f') d) := by
  cases hr : x c with
  | ok b c' =>
      rw [hr] at hout hx
      obtain ⟨ts, hp, hq⟩ := hout
      obtain ⟨b', d', hr', hW, hR⟩ := hx.of_ok
      rw [bind_of_ok hr, bind_of_ok hr']
      exact hf b b' ts c' d' hp hq hW hR
  | error e c' =>
      rw [hr] at hx
      obtain ⟨e', d', hr', he, hR⟩ := hx.of_error
      rw [bind_of_error hr, bind_of_error hr']
      exact ⟨he, hR⟩

theorem current {f : Token → Parse α} {f' : Token → Parse α'}
    (h : Agree ρ R V (f c.current c) (f' d.current d)) :
    Agree ρ R V ((Parse.current >>= f) c) ((Parse.current >>= f') d) :=
  h

theorem currentIdent {f : Ident → Parse α} {f' : Ident → Parse α'}
    (h : Agree ρ R V (f ⟨c.current.lexeme, c.current.span⟩ c)
      (f' ⟨d.current.lexeme, d.current.span⟩ d)) :
    Agree ρ R V ((Parse.currentIdent >>= f) c) ((Parse.currentIdent >>= f') d) :=
  h

end Agree

namespace Simulation

variable (hS : Simulation ρ R) (h : R c d)
include hS h

theorem ident : Ident.Like ρ ⟨c.current.lexeme, c.current.span⟩
    ⟨d.current.lexeme, d.current.span⟩ :=
  ⟨(hS.current h).lexeme, (hS.current h).span⟩

/-- From one place to another. -/
theorem stretch {c' d' : Cursor} (h' : R c' d') :
    ρ (c.current.span.merge c'.current.span) (d.current.span.merge d'.current.span) :=
  hS.merge (hS.current h).span (hS.current h').span

/-- With one token left, the next one is the end. -/
theorem peek_eof (hc : c.Live) (hn : c.tokens.length ≤ 1) :
    c.peek.kind = .eof ∧ d.peek.kind = .eof := by
  have hpeek := peek_of_length_le hc.not_isEof hn
  exact ⟨hpeek, (hS.peek h hc.inside).kind ▸ hpeek⟩

theorem noOperand : Agree ρ R V ((Parse.noOperand : Parse α) c) ((Parse.noOperand : Parse α') d) :=
  ⟨⟨congrArg SyntaxCause.noOperand (hS.current h).kind, (hS.current h).span⟩, h⟩

theorem unclosed : Agree ρ R V ((Parse.unclosed : Parse α) c) ((Parse.unclosed : Parse α') d) :=
  ⟨⟨rfl, (hS.current h).span⟩, h⟩

theorem peekKind {f : Kind → Parse α} {f' : Kind → Parse α'} (hc : c.Inside)
    (hf : Agree ρ R V (f c.peek.kind c) (f' c.peek.kind d)) :
    Agree ρ R V ((Parse.peekKind >>= f) c) ((Parse.peekKind >>= f') d) := by
  rw [bind_of_ok (peekKind_apply c), bind_of_ok (peekKind_apply d), ← (hS.peek h hc).kind]
  exact hf

theorem advance_step {f : Unit → Parse α} {f' : Unit → Parse α'} (hc : c.Inside)
    (hf : R c.advance d.advance → Agree ρ R V (f () c.advance) (f' () d.advance)) :
    Agree ρ R V ((Parse.advance >>= f) c) ((Parse.advance >>= f') d) :=
  hf (hS.advance h hc)

theorem expect {k : Kind} {f : Unit → Parse α} {f' : Unit → Parse α'} (hc : c.Inside)
    (hf : c.advance.current.kind = k → R c.advance d.advance →
      Agree ρ R V (f () c.advance) (f' () d.advance)) :
    Agree ρ R V ((Parse.expect k >>= f) c) ((Parse.expect k >>= f') d) := by
  have hpeek := hS.peek h hc
  by_cases hk : c.peek.kind = k
  · rw [bind_of_ok (expect_of_eq hk), bind_of_ok (expect_of_eq (hpeek.kind ▸ hk))]
    exact hf hk (hS.advance h hc)
  · rw [bind_of_error (expect_of_ne hk), bind_of_error (expect_of_ne (hpeek.kind ▸ hk))]
    exact ⟨⟨congrArg (SyntaxCause.unexpected k) hpeek.kind, hpeek.span⟩, h⟩

theorem accept {k : Kind} {f : Bool → Parse α} {f' : Bool → Parse α'} (hc : c.Inside)
    (hyes : c.advance.current.kind = k → R c.advance d.advance →
      Agree ρ R V (f true c.advance) (f' true d.advance))
    (hno : c.peek.kind ≠ k → Agree ρ R V (f false c) (f' false d)) :
    Agree ρ R V ((Parse.accept k >>= f) c) ((Parse.accept k >>= f') d) := by
  have hpeek := hS.peek h hc
  by_cases hk : c.peek.kind = k
  · rw [bind_of_ok (accept_of_eq hk), bind_of_ok (accept_of_eq (hpeek.kind ▸ hk))]
    exact hyes hk (hS.advance h hc)
  · rw [bind_of_ok (accept_of_ne hk), bind_of_ok (accept_of_ne (hpeek.kind ▸ hk))]
    exact hno hk

end Simulation

end Rules

/-! ## Expressions inside a construct -/

/-- Two parsers of expressions do the same where at most `n` tokens are ahead. -/
structure Lockstep (ρ : Span → Span → Prop) (R : Cursor → Cursor → Prop) (n : Nat)
    (expr expr' : Precedence → Parse Expr) : Prop where
  sound : Sound n expr
  agree (p : Precedence) {c d : Cursor} : R c d → c.tokens.length ≤ n →
    Agree ρ R (Expr.Like ρ) (expr p c) (expr' p d)
  atEnd (p : Precedence) {d : Cursor} : d.current.kind = .eof → expr' p d = noOperand d

variable {n : Nat} {expr expr' : Precedence → Parse Expr} {c d : Cursor}

theorem Lockstep.bind {α α' : Type} {V : α → α' → Prop} {f : Expr → Parse α} {f' : Expr → Parse α'}
    (hL : Lockstep ρ R n expr expr') (p : Precedence) (h : R c d) (hn : c.tokens.length ≤ n)
    (hf : ∀ e e' c' d', c'.Live → c'.tokens.length ≤ c.tokens.length → e.Like ρ e' → R c' d' →
      Agree ρ R V (f e c') (f' e' d')) :
    Agree ρ R V ((expr p >>= f) c) ((expr' p >>= f') d) := by
  refine .bind (hL.sound p c hn) (hL.agree p h hn) ?_
  rintro e e' ts c' d' hp ⟨⟨hend, hs⟩, -⟩ he h'
  exact hf e e' c' d' (Cursor.live_of_lastKind hend hs.lastKind_ne) hp.length_tokens_le he h'

/-- Where a construct is read behind a token, that is not a semicolon. -/
theorem Outcome.Behind.live {α : Type} {S : α → List Word → Prop} {a : α} {ts : List Token}
    {c' : Cursor} (h : Outcome.Behind c S a ts c') (hc : c.Live)
    (hS : ∀ ws, S a ws → lastKind ws ≠ .semicolon) : c'.Live := by
  obtain ⟨hend, ws, hs, hw⟩ := h
  have hlast := lastKind_cons_ne (c.current.word_kind ▸ hc.2) (hS ws hs)
  rw [← hw] at hlast
  exact Cursor.live_of_lastKind hend hlast

theorem Outcome.Whole.live {α : Type} {S : α → List Word → Prop} {a : α} {ts : List Token}
    {c' : Cursor} (h : Outcome.Whole S a ts c') (hS : ∀ ws, S a ws → lastKind ws ≠ .semicolon) :
    c'.Live :=
  Cursor.live_of_lastKind h.1 (hS _ h.2)

theorem LeftOperand.lastKind_ne {p : Precedence} {e : Expr} {ws : List Word} {k : Kind}
    (h : LeftOperand p e ws k) : lastKind ws ≠ .semicolon := by
  obtain ⟨_, _, _, hs⟩ := h
  exact hs.lastKind_ne

/-- An operator is neither the end nor a semicolon. -/
theorem live_of_lt {p : Precedence} (h : p < .ofKind c.current.kind) : c.Live := by
  refine ⟨fun hk => ?_, fun hk => ?_⟩ <;>
    · rw [hk] at h
      exact absurd h (Nat.not_lt_zero _)

/-! ## Where loops end -/

theorem listTail_of_ne (m : Nat) (h : c.peek.kind ≠ .comma) : listTail expr m c = .ok [] c := by
  cases m with
  | zero => rfl
  | succ m =>
      rw [listTail, bind_of_ok (accept_of_ne h)]
      rfl

theorem paramsTail_of_ne (m : Nat) (h : c.peek.kind ≠ .comma) : paramsTail m c = .ok [] c := by
  cases m with
  | zero => rfl
  | succ m =>
      rw [paramsTail, bind_of_ok (accept_of_ne h)]
      rfl

theorem pairs_of_eof (hend : ∀ p {c : Cursor}, c.current.kind = .eof → expr p c = noOperand c)
    (m : Nat) (h : c.peek.kind = .eof) :
    pairs expr m c = (do advance; noOperand : Parse (List (Expr × Expr))) c := by
  cases m with
  | zero => rfl
  | succ m =>
      have hexpr : expr .lowest c.advance = noOperand c.advance := hend .lowest h
      rw [pairs, bind_of_ok (peekKind_apply c), if_neg (by rw [h]; decide),
        bind_of_ok (advance_apply c), bind_of_error (hexpr.trans rfl)]
      rfl

/-! ## Lists -/

theorem paramsTail_agree (hS : Simulation ρ R) (m : Nat) : ∀ {m' : Nat} {c d : Cursor}, m ≤ m' →
    R c d → c.Live → c.tokens.length ≤ m + 1 →
    Agree ρ R (List.Forall₂ (Ident.Like ρ)) (paramsTail m c) (paramsTail m' d) := by
  induction m with
  | zero =>
      intro m' c d _ h hc hm
      obtain ⟨hpeek, hpeek'⟩ := hS.peek_eof h hc hm
      rw [paramsTail_of_ne 0 (by rw [hpeek]; decide), paramsTail_of_ne m' (by rw [hpeek']; decide)]
      exact ⟨.nil, h⟩
  | succ m ih =>
      intro m' c d hm' h hc hm
      obtain ⟨k, rfl⟩ := Nat.exists_eq_add_of_lt hm'
      have hlen := length_advance hc.not_isEof
      refine hS.accept h hc.inside (fun hk h1 => ?_) (fun _ => .pure .nil h)
      have hc1 := live_of_kind hk (by decide)
      have hlen1 := length_advance hc1.not_isEof
      refine hS.expect h1 hc1.inside fun hi h2 => .currentIdent ?_
      have hc2 := live_of_kind hi (by decide)
      refine .bind (paramsTail_sound m _ hc2.not_isEof) (ih (by omega) h2 hc2 (by omega))
        fun ps qs ts c3 d3 _ _ hps h3 => ?_
      exact .pure (.cons (hS.ident h2) hps) h3

theorem params_agree (hS : Simulation ρ R) {m m' : Nat} (hm' : m ≤ m') (h : R c d) (hc : c.Live)
    (hm : c.tokens.length ≤ m + 1) :
    Agree ρ R (List.Forall₂ (Ident.Like ρ)) (params m c) (params m' d) := by
  have hlen := length_advance hc.not_isEof
  refine hS.accept h hc.inside (fun _ h1 => .pure .nil h1) (fun _ => ?_)
  refine hS.expect h hc.inside fun hi h1 => .currentIdent ?_
  have hc1 := live_of_kind hi (by decide)
  refine .bind (paramsTail_sound m _ hc1.not_isEof)
    (paramsTail_agree hS m hm' h1 hc1 (by omega)) fun ps qs ts c2 d2 _ hbehind hps h2 => ?_
  have hc2 : c2.Live := by
    refine hbehind.live hc1 ?_
    rintro _ rfl
    exact Ident.lastKind_tail_ne ps (by decide)
  exact hS.expect h2 hc2.inside fun _ h3 => .pure (.cons (hS.ident h1) hps) h3

section Constructs

variable (hS : Simulation ρ R) (hL : Lockstep ρ R n expr expr')
include hS hL

theorem listTail_agree (m : Nat) : ∀ {m' : Nat} {c d : Cursor}, m ≤ m' → R c d → c.Live →
    c.tokens.length ≤ m + 1 → c.tokens.length ≤ n + 1 →
    Agree ρ R (Expr.LikeAll ρ) (listTail expr m c) (listTail expr' m' d) := by
  induction m with
  | zero =>
      intro m' c d _ h hc hm _
      -- the second parser may have rounds left, but there is nothing to read in them
      obtain ⟨hpeek, hpeek'⟩ := hS.peek_eof h hc hm
      rw [listTail_of_ne 0 (by rw [hpeek]; decide), listTail_of_ne m' (by rw [hpeek']; decide)]
      exact ⟨.nil, h⟩
  | succ m ih =>
      intro m' c d hm' h hc hm hn
      obtain ⟨k, rfl⟩ := Nat.exists_eq_add_of_lt hm'
      have hlen := length_advance hc.not_isEof
      refine hS.accept h hc.inside (fun hk h1 => ?_) (fun _ => .pure .nil h)
      have hc1 := live_of_kind hk (by decide)
      have hlen1 := length_advance hc1.not_isEof
      refine hS.advance_step h1 hc1.inside fun h2 => ?_
      refine hL.bind _ h2 (by omega) fun e e' c3 d3 hc3 hlen3 he h3 => ?_
      refine .bind (listTail_sound hL.sound m c3 hc3.not_isEof (by omega))
        (ih (by omega) h3 hc3 (by omega) (by omega)) fun es es' ts c4 d4 _ _ hes h4 => ?_
      exact .pure (.cons he hes) h4

theorem pairs_agree (m : Nat) : ∀ {m' : Nat} {c d : Cursor}, m ≤ m' → R c d → c.Live →
    c.tokens.length ≤ m + 1 → c.tokens.length ≤ n + 1 →
    Agree ρ R (Expr.LikePairs ρ) (pairs expr m c) (pairs expr' m' d) := by
  induction m with
  | zero =>
      intro m' c d _ h hc hm _
      rw [pairs_of_eof hL.atEnd m' (hS.peek_eof h hc hm).2]
      exact hS.advance_step h hc.inside fun h1 => hS.noOperand h1
  | succ m ih =>
      intro m' c d hm' h hc hm hn
      obtain ⟨k, rfl⟩ := Nat.exists_eq_add_of_lt hm'
      have hlen := length_advance hc.not_isEof
      refine hS.peekKind h hc.inside ?_
      split
      · exact .pure .nil h
      refine hS.advance_step h hc.inside fun h1 => ?_
      refine hL.bind _ h1 (by omega) fun key key' c2 d2 hc2 hlen2 hkey h2 => ?_
      have hlen2' := length_advance hc2.not_isEof
      refine hS.expect h2 hc2.inside fun hcolon h3 => ?_
      have hc3 := live_of_kind hcolon (by decide)
      have hlen3 := length_advance hc3.not_isEof
      refine hS.advance_step h3 hc3.inside fun h4 => ?_
      refine hL.bind _ h4 (by omega) fun value value' c5 d5 hc5 hlen5 hvalue h5 => ?_
      have hlen5' := length_advance hc5.not_isEof
      have rest {c' d' : Cursor} (h' : R c' d') (hc' : c'.Live)
          (hlen' : c'.tokens.length ≤ c5.tokens.length) :
          Agree ρ R (Expr.LikePairs ρ)
            ((do return (key, value) :: (← pairs expr m) : Parse (List (Expr × Expr))) c')
            ((do return (key', value') :: (← pairs expr' (m + k)) : Parse _) d') := by
        refine .bind (pairs_sound hL.sound m c' hc'.not_isEof (by omega))
          (ih (by omega) h' hc' (by omega) (by omega)) fun ps qs ts c7 d7 _ _ hps h7 => ?_
        exact .pure (.cons hkey hvalue hps) h7
      refine hS.peekKind h5 hc5.inside ?_
      split
      · refine hS.expect h5 hc5.inside fun hcomma h6 => ?_
        exact rest h6 (live_of_kind hcomma (by decide)) (by omega)
      · exact rest h5 hc5 (Nat.le_refl _)

/-! ## Statements -/

theorem letStmt_agree (h : R c d) (hk : c.current.kind = .kwLet) (hn : c.tokens.length ≤ n + 1) :
    Agree ρ R (Stmt.Like ρ) (letStmt expr c) (letStmt expr' d) := by
  have hc := live_of_kind hk (by decide)
  have hlen := length_advance hc.not_isEof
  refine .current (hS.expect h hc.inside fun hi h1 => .currentIdent ?_)
  have hc1 := live_of_kind hi (by decide)
  have hlen1 := length_advance hc1.not_isEof
  refine hS.expect h1 hc1.inside fun ha h2 => ?_
  have hc2 := live_of_kind ha (by decide)
  have hlen2 := length_advance hc2.not_isEof
  refine hS.advance_step h2 hc2.inside fun h3 => ?_
  refine hL.bind _ h3 (by omega) fun e e' c4 d4 hc4 _ he h4 => ?_
  have hend {c' d' : Cursor} (h' : R c' d') :
      Stmt.Like ρ (.bind _ e (c.current.span.merge c'.current.span))
        (.bind _ e' (d.current.span.merge d'.current.span)) :=
    .bind (hS.ident h1) he (hS.stretch h h')
  exact hS.accept h4 hc4.inside (fun _ h5 => .pure (hend h5) h5) (fun _ => .pure (hend h4) h4)

theorem returnStmt_agree (h : R c d) (hk : c.current.kind = .kwReturn)
    (hn : c.tokens.length ≤ n + 1) :
    Agree ρ R (Stmt.Like ρ) (returnStmt expr c) (returnStmt expr' d) := by
  have hc := live_of_kind hk (by decide)
  have hlen := length_advance hc.not_isEof
  refine .current (hS.advance_step h hc.inside fun h1 => ?_)
  refine hL.bind _ h1 (by omega) fun e e' c2 d2 hc2 _ he h2 => ?_
  have hend {c' d' : Cursor} (h' : R c' d') :
      Stmt.Like ρ (.ret e (c.current.span.merge c'.current.span))
        (.ret e' (d.current.span.merge d'.current.span)) :=
    .ret he (hS.stretch h h')
  exact hS.accept h2 hc2.inside (fun _ h3 => .pure (hend h3) h3) (fun _ => .pure (hend h2) h2)

theorem exprStmt_agree (h : R c d) (hn : c.tokens.length ≤ n) :
    Agree ρ R (Stmt.Like ρ) (exprStmt expr c) (exprStmt expr' d) := by
  refine hL.bind _ h hn fun e e' c1 d1 hc1 _ he h1 => ?_
  exact hS.accept h1 hc1.inside (fun _ h2 => .pure (.expr he he.span) h2)
    (fun _ => .pure (.expr he he.span) h1)

theorem stmt_agree (h : R c d) (hn : c.tokens.length ≤ n) :
    Agree ρ R (Stmt.Like ρ) (stmt expr c) (stmt expr' d) := by
  have hkind := (hS.current h).kind
  by_cases hlet : c.current.kind = .kwLet
  · rw [stmt_of_let hlet, stmt_of_let (hkind ▸ hlet)]
    exact letStmt_agree hS hL h hlet (Nat.le_succ_of_le hn)
  by_cases hret : c.current.kind = .kwReturn
  · rw [stmt_of_return hret, stmt_of_return (hkind ▸ hret)]
    exact returnStmt_agree hS hL h hret (Nat.le_succ_of_le hn)
  · rw [stmt_of_ne hlet hret, stmt_of_ne (hkind ▸ hlet) (hkind ▸ hret)]
    exact exprStmt_agree hS hL h hn

/-- The nesting is positive in front of each statement: a block is open. -/
theorem stmts_agree (m : Nat) : ∀ {m' : Nat} {c d : Cursor}, m ≤ m' → R c d → 0 < c.nesting →
    c.tokens.length ≤ m → c.tokens.length ≤ n →
    Agree ρ R (Stmt.LikeAll ρ) (stmts expr m c) (stmts expr' m' d) := by
  induction m with
  | zero =>
      intro m' c d _ h _ hm _
      have heof := current_of_length_le hm
      rw [stmts_of_eof heof, stmts_of_eof ((hS.current h).kind ▸ heof)]
      exact hS.unclosed h
  | succ m ih =>
      intro m' c d hm' h hopen hm hn
      obtain ⟨k, rfl⟩ := Nat.exists_eq_add_of_lt hm'
      have hkind := (hS.current h).kind
      by_cases heof : c.current.kind = .eof
      · rw [stmts_of_eof heof, stmts_of_eof (hkind ▸ heof)]
        exact hS.unclosed h
      by_cases hbrace : c.current.kind = .rightBrace
      · rw [stmts_of_rightBrace hbrace, stmts_of_rightBrace (hkind ▸ hbrace)]
        exact ⟨.nil, h⟩
      rw [stmts_of_ne heof hbrace, stmts_of_ne (hkind ▸ heof) (hkind ▸ hbrace)]
      refine .bind (stmt_sound hL.sound hn) (stmt_agree hS hL h hn)
        fun s s' ts c1 d1 hp ⟨h1, hspell⟩ hs hR1 => ?_
      have hnest := hp.nesting_advance hspell.bracketed.balanced
      have hinside : c1.Inside := by
        intro hk
        have hsame : c1.advance.nesting = c1.nesting := congrArg (Cursor.nestingAfter c1.nesting) hk
        omega
      have hlen1 := hp.length_tokens_le
      have hlen1' := length_advance h1
      refine hS.advance_step hR1 hinside fun hR2 => ?_
      refine .bind (stmts_sound hL.sound m _ (by omega) (by omega))
        (ih (by omega) hR2 (by omega) (by omega) (by omega)) fun ss ss' us c3 d3 _ _ hss hR3 => ?_
      exact .pure (.cons hs hss) hR3

/-! ## Blocks -/

variable {n' : Nat} (hn' : n ≤ n')
include hn'

theorem list_agree {close : Kind} (h : R c d) (hc : c.Live) (hn : c.tokens.length ≤ n + 1) :
    Agree ρ R (Expr.LikeAll ρ) (list expr n close c) (list expr' n' close d) := by
  have hlen := length_advance hc.not_isEof
  refine hS.accept h hc.inside (fun _ h1 => .pure .nil h1) (fun _ => ?_)
  refine hS.advance_step h hc.inside fun h1 => ?_
  refine hL.bind _ h1 (by omega) fun e e' c2 d2 hc2 hlen2 he h2 => ?_
  refine .bind (listTail_sound hL.sound n c2 hc2.not_isEof (by omega))
    (listTail_agree hS hL n hn' h2 hc2 (by omega) (by omega)) fun es es' ts c3 d3 _ ht hes h3 => ?_
  have hc3 := ht.live hc2 fun _ hs => hs.lastKind_ne
  exact hS.expect h3 hc3.inside fun _ h4 => .pure (.cons he hes) h4

theorem block_agree (h : R c d) (hk : c.current.kind = .leftBrace)
    (hn : c.tokens.length ≤ n + 1) :
    Agree ρ R (Block.Like ρ) (block expr n c) (block expr' n' d) := by
  have hc := live_of_kind hk (by decide)
  have hlen := length_advance hc.not_isEof
  have hopen : c.advance.nesting = c.nesting + 1 := congrArg (Cursor.nestingAfter c.nesting) hk
  refine .current (hS.advance_step h hc.inside fun h1 => ?_)
  refine .bind (stmts_sound hL.sound n _ (by omega) (by omega))
    (stmts_agree hS hL n hn' h1 (by omega) (by omega) (by omega))
    fun ss ss' ts c2 d2 _ _ hss h2 => .current ?_
  exact .pure (.mk hss (hS.stretch h h2)) h2

/-! ## Operands -/

omit hL hn' in
theorem integer_agree (h : R c d) : Agree ρ R (Expr.Like ρ) (integer c) (integer d) := by
  have hcur := hS.current h
  refine .current ?_
  rw [← hcur.lexeme]
  cases Text.int64? c.current.lexeme with
  | some i => exact .pure (.int hcur.span) h
  | none => exact ⟨⟨rfl, hcur.span⟩, h⟩

omit hn' in
theorem grouped_agree (h : R c d) (hk : c.current.kind = .leftParen)
    (hn : c.tokens.length ≤ n + 1) :
    Agree ρ R (Expr.Like ρ) (grouped expr c) (grouped expr' d) := by
  have hc := live_of_kind hk (by decide)
  have hlen := length_advance hc.not_isEof
  refine hS.advance_step h hc.inside fun h1 => ?_
  refine hL.bind _ h1 (by omega) fun e e' c2 d2 hc2 _ he h2 => ?_
  exact hS.expect h2 hc2.inside fun _ h3 => .pure he h3

omit hn' in
theorem unary_agree {op : UnaryOp} (h : R c d) (hc : c.Live) (hn : c.tokens.length ≤ n + 1) :
    Agree ρ R (Expr.Like ρ) (unary expr op c) (unary expr' op d) := by
  have hlen := length_advance hc.not_isEof
  refine .current (hS.advance_step h hc.inside fun h1 => ?_)
  refine hL.bind _ h1 (by omega) fun e e' c2 d2 _ _ he h2 => ?_
  exact .pure (.unary he (hS.merge (hS.current h).span he.span)) h2

theorem cond_agree (m : Nat) : ∀ {m' : Nat} {c d : Cursor}, m ≤ m' → R c d →
    c.current.kind = .kwIf → c.tokens.length ≤ m → c.tokens.length ≤ n + 1 →
    Agree ρ R (Expr.Like ρ) (Parse.cond expr n m c) (Parse.cond expr' n' m' d) := by
  induction m with
  | zero =>
      intro m' c d _ _ hk hm _
      rw [current_of_length_le hm] at hk
      cases hk
  | succ m ih =>
      intro m' c d hm' h hk hm hn
      obtain ⟨k, rfl⟩ := Nat.exists_eq_add_of_lt hm'
      have hc := live_of_kind hk (by decide)
      have hlen := length_advance hc.not_isEof
      refine .current (hS.expect h hc.inside fun hl h1 => ?_)
      have hc1 := live_of_kind hl (by decide)
      have hlen1 := length_advance hc1.not_isEof
      refine hS.advance_step h1 hc1.inside fun h2 => ?_
      refine hL.bind _ h2 (by omega) fun test test' c3 d3 hc3 hlen3 htest h3 => ?_
      have hlen3' := length_advance hc3.not_isEof
      refine hS.expect h3 hc3.inside fun hr h4 => ?_
      have hc4 := live_of_kind hr (by decide)
      have hlen4 := length_advance hc4.not_isEof
      refine hS.expect h4 hc4.inside fun hb h5 => ?_
      refine .bind (block_sound hL.sound hb (by omega)) (block_agree hS hL hn' h5 hb (by omega))
        fun yes yes' ts c6 d6 hp6 hwhole hyes h6 => ?_
      have hc6 := hwhole.live fun _ hs => hs.lastKind_ne
      have hlen6 := hp6.length_tokens_le
      have hlen6' := length_advance hc6.not_isEof
      have hend {no no' : Option Block} {c' d' : Cursor} (hno : Block.LikeElse ρ no no')
          (h' : R c' d') : Expr.Like ρ (.cond test yes no (c.current.span.merge c'.current.span))
            (.cond test' yes' no' (d.current.span.merge d'.current.span)) :=
        .cond htest hyes hno (hS.stretch h h')
      refine hS.accept h6 hc6.inside (fun he h7 => ?_)
        (fun _ => .current (.pure (hend .none h6) h6))
      have hc7 := live_of_kind he (by decide)
      have hlen7 := length_advance hc7.not_isEof
      refine hS.accept h7 hc7.inside (fun hi h8 => ?_) (fun _ => ?_)
      · refine .bind (cond_sound hL.sound m _ hi (by omega))
          (ih (by omega) h8 hi (by omega) (by omega)) fun e e' us c9 d9 _ _ he h9 => .current ?_
        exact .pure (hend (.some (.mk (.cons (.expr he he.span) .nil) he.span)) h9) h9
      · refine hS.expect h7 hc7.inside fun hb' h8 => ?_
        refine .bind (block_sound hL.sound hb' (by omega))
          (block_agree hS hL hn' h8 hb' (by omega)) fun no no' us c9 d9 _ _ hno h9 => .current ?_
        exact .pure (hend (.some hno) h9) h9

theorem function_agree (h : R c d) (hk : c.current.kind = .kwFn) (hn : c.tokens.length ≤ n + 1) :
    Agree ρ R (Expr.Like ρ) (function expr n c) (function expr' n' d) := by
  have hc := live_of_kind hk (by decide)
  have hlen := length_advance hc.not_isEof
  refine .current (hS.expect h hc.inside fun hl h1 => ?_)
  have hc1 := live_of_kind hl (by decide)
  have hlen1 := length_advance hc1.not_isEof
  refine .bind (params_sound n hc1.not_isEof) (params_agree hS hn' h1 hc1 (by omega))
    fun ps qs ts c2 d2 hp2 hbehind hps h2 => ?_
  have hc2 : c2.Live := by
    refine hbehind.live hc1 ?_
    rintro _ rfl
    rw [lastKind_concat]
    decide
  have hlen2 := hp2.length_tokens_le
  have hlen2' := length_advance hc2.not_isEof
  refine hS.expect h2 hc2.inside fun hb h3 => ?_
  refine .bind (block_sound hL.sound hb (by omega)) (block_agree hS hL hn' h3 hb (by omega))
    fun body body' us c4 d4 _ _ hbody h4 => .current ?_
  exact .pure (.fn hps hbody (hS.stretch h h4)) h4

theorem array_agree (h : R c d) (hk : c.current.kind = .leftBracket)
    (hn : c.tokens.length ≤ n + 1) :
    Agree ρ R (Expr.Like ρ) (array expr n c) (array expr' n' d) := by
  have hc := live_of_kind hk (by decide)
  refine .current (.bind (list_sound hL.sound n rfl hc.not_isEof hn) (list_agree hS hL hn' h hc hn)
    fun es es' ts c1 d1 _ _ hes h1 => .current ?_)
  exact .pure (.array hes (hS.stretch h h1)) h1

theorem hash_agree (h : R c d) (hk : c.current.kind = .leftBrace) (hn : c.tokens.length ≤ n + 1) :
    Agree ρ R (Expr.Like ρ) (Parse.hash expr n c) (Parse.hash expr' n' d) := by
  have hc := live_of_kind hk (by decide)
  refine .current (.bind (pairs_sound hL.sound n c hc.not_isEof hn)
    (pairs_agree hS hL n hn' h hc hn hn) fun ps qs ts c1 d1 _ ⟨hbehind, _⟩ hps h1 => ?_)
  have hc1 := hbehind.live hc fun _ hs => hs.lastKind_ne
  refine hS.expect h1 hc1.inside fun _ h2 => .current ?_
  exact .pure (.hash hps (hS.stretch h h2)) h2

theorem operand_agree (h : R c d) (hn : c.tokens.length ≤ n + 1) :
    Agree ρ R (Expr.Like ρ) (operand expr n c) (operand expr' n' d) := by
  have hcur := hS.current h
  refine .current ?_
  rw [← hcur.kind, ← hcur.lexeme]
  cases hk : c.current.kind
  case ident => exact .pure (.ident hcur.span) h
  case integer => exact integer_agree hS h
  case string => exact .pure (.str hcur.span) h
  case kwTrue => exact .pure (.bool hcur.span) h
  case kwFalse => exact .pure (.bool hcur.span) h
  case bang => exact unary_agree hS hL h (live_of_kind hk (by decide)) hn
  case minus => exact unary_agree hS hL h (live_of_kind hk (by decide)) hn
  case leftParen => exact grouped_agree hS hL h hk hn
  case kwIf => exact cond_agree hS hL hn' (n + 1) (Nat.succ_le_succ hn') h hk hn hn
  case kwFn => exact function_agree hS hL hn' h hk hn
  case leftBracket => exact array_agree hS hL hn' h hk hn
  case leftBrace => exact hash_agree hS hL hn' h hk hn
  all_goals exact hS.noOperand h

/-! ## Operators -/

variable {lhs lhs' : Expr}

theorem call_agree (hlhs : lhs.Like ρ lhs') (h : R c d) (hc : c.Live)
    (hn : c.tokens.length ≤ n + 1) :
    Agree ρ R (Expr.Like ρ) (call expr n lhs c) (call expr' n' lhs' d) := by
  refine .bind (list_sound hL.sound n rfl hc.not_isEof hn) (list_agree hS hL hn' h hc hn)
    fun es es' ts c1 d1 _ _ hes h1 => .current ?_
  exact .pure (.call hlhs hes (hS.merge hlhs.span (hS.current h1).span)) h1

omit hn' in
theorem index_agree (hlhs : lhs.Like ρ lhs') (h : R c d) (hc : c.Live)
    (hn : c.tokens.length ≤ n + 1) :
    Agree ρ R (Expr.Like ρ) (index expr lhs c) (index expr' lhs' d) := by
  have hlen := length_advance hc.not_isEof
  refine hS.advance_step h hc.inside fun h1 => ?_
  refine hL.bind _ h1 (by omega) fun key key' c2 d2 hc2 _ hkey h2 => ?_
  refine hS.expect h2 hc2.inside fun _ h3 => .current ?_
  exact .pure (.index hlhs hkey (hS.merge hlhs.span (hS.current h3).span)) h3

omit hn' in
theorem binary_agree {op : BinaryOp} {p : Precedence} (hlhs : lhs.Like ρ lhs') (h : R c d)
    (hc : c.Live) (hn : c.tokens.length ≤ n + 1) :
    Agree ρ R (Expr.Like ρ) (binary expr op p lhs c) (binary expr' op p lhs' d) := by
  have hlen := length_advance hc.not_isEof
  refine hS.advance_step h hc.inside fun h1 => ?_
  refine hL.bind _ h1 (by omega) fun rhs rhs' c2 d2 _ _ hrhs h2 => ?_
  exact .pure (.binary hlhs hrhs (hS.merge hlhs.span hrhs.span)) h2

theorem operator_agree (hlhs : lhs.Like ρ lhs') (h : R c d) (hc : c.Live)
    (hn : c.tokens.length ≤ n + 1) :
    Agree ρ R (Expr.Like ρ) (operator expr n lhs c) (operator expr' n' lhs' d) := by
  refine .current ?_
  rw [← (hS.current h).kind]
  cases c.current.kind
  case leftParen => exact call_agree hS hL hn' hlhs h hc hn
  case leftBracket => exact index_agree hS hL hlhs h hc hn
  all_goals first
    | exact binary_agree hS hL hlhs h hc hn
    | exact .pure hlhs h

theorem operators_agree (p : Precedence) (m : Nat) :
    ∀ {m' : Nat} {c d : Cursor} {lhs lhs' : Expr} (ls : List Word), m ≤ m' → R c d → c.Live →
      c.tokens.length ≤ m + 1 → c.tokens.length ≤ n + 1 → lhs.Like ρ lhs' →
      LeftOperand p lhs (ls ++ [c.current.word]) c.peek.kind →
      Agree ρ R (Expr.Like ρ) (operators expr n p m lhs c) (operators expr' n' p m' lhs' d) := by
  induction m with
  | zero =>
      intro m' c d lhs lhs' _ _ h hc hm _ hlhs _
      have hnot : ¬p < .ofKind d.peek.kind := by
        rw [(hS.peek_eof h hc hm).2]
        exact Nat.not_lt_zero _
      rw [operators_of_not_lt hnot]
      exact ⟨hlhs, h⟩
  | succ m ih =>
      intro m' c d lhs lhs' ls hm' h hc hm hn hlhs hl
      obtain ⟨k, rfl⟩ := Nat.exists_eq_add_of_lt hm'
      have hlen := length_advance hc.not_isEof
      refine hS.peekKind h hc.inside ?_
      split
      · rename_i hp
        have hc1 : c.advance.Live := live_of_lt hp
        refine hS.advance_step h hc.inside fun h1 => ?_
        refine .bind (operator_sound hL.sound hl hp (by omega))
          (operator_agree hS hL hn' hlhs h1 hc1 (by omega))
          fun e e' ts c2 d2 hp2 ⟨h2, hl2⟩ he h' => ?_
        have hlen2 := hp2.length_tokens_le
        have hc2 := Cursor.live_of_lastKind h2 hl2.lastKind_ne
        exact ih _ (by omega) h' hc2 (by omega) (by omega) he hl2
      · exact .pure hlhs h

end Constructs

/-! ## Expressions and statements -/

theorem operand_of_eof (h : c.current.kind = .eof) : operand expr n c = noOperand c := by
  rw [operand, bind_of_ok (current_apply c), h]

theorem expressionWithin_of_eof (n : Nat) (p : Precedence) (h : c.current.kind = .eof) :
    expressionWithin n p c = noOperand c := by
  cases n with
  | zero => rfl
  | succ n =>
      rw [expressionWithin, bind_of_error ((operand_of_eof h).trans rfl)]
      rfl

theorem expressionWithin_lockstep (hS : Simulation ρ R) (n : Nat) :
    ∀ {n' : Nat}, n ≤ n' → Lockstep ρ R n (expressionWithin n) (expressionWithin n') := by
  induction n with
  | zero =>
      refine fun {n'} _ => ⟨expressionWithin_sound 0, fun p {c d} h hn => ?_,
        fun p {d} hd => expressionWithin_of_eof n' p hd⟩
      have heof := current_of_length_le hn
      rw [expressionWithin_of_eof 0 p heof,
        expressionWithin_of_eof n' p ((hS.current h).kind ▸ heof)]
      exact hS.noOperand h
  | succ n ih =>
      refine fun {n'} hn' => ⟨expressionWithin_sound (n + 1), fun p {c d} h hn => ?_,
        fun p {d} hd => expressionWithin_of_eof n' p hd⟩
      obtain ⟨k, rfl⟩ := Nat.exists_eq_add_of_lt hn'
      have hk : n ≤ n + k := Nat.le_add_right _ _
      have hL := ih hk
      refine .bind (operand_sound hL.sound hn) (operand_agree hS hL hk h hn)
        fun lhs lhs' ts c1 d1 hp1 ⟨h1, hl⟩ hlhs hR1 => ?_
      have hlen1 := hp1.length_tokens_le
      have hc1 := Cursor.live_of_lastKind h1 (hl p).lastKind_ne
      exact operators_agree hS hL hk p n _ hk hR1 hc1 (by omega) (by omega) hlhs (hl p)

/-- From related places, the same statement is read, or the same error is found. -/
theorem statement_agree (hS : Simulation ρ R) (h : R c d) :
    Agree ρ R (Stmt.Like ρ) (statement c) (statement d) :=
  stmt_agree hS (expressionWithin_lockstep hS c.left (hS.left h)) h c.length_tokens_le_left

end Monkey.Parse
