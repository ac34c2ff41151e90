import Monkey.Proofs.Parse.Reading
import Monkey.Proofs.Syntax.Erasure

/-!
# What the grammar spells is read

Whatever spells a tree in the strict grammar is read as that tree, up to spans. As for soundness,
each construct is read given what the parser of the expressions inside it reads.

A left operand is not read by a call of its own: it is what the loop over the operators has made of
the words so far. So the reading of an expression is stated for an operand and the operators behind
it together, at a place where more operators may follow.
-/

namespace Monkey.Parse

open Cursor (Before)
open Precedence (strength)

variable {n : Nat} {expr : Precedence → Parse Expr} {c : Cursor} {r ws : List Word}
  {p : Precedence} {l : Nat} {e : Expr}

/-! ## What is asked of the expression parser -/

/-- The operators of strength `l` or more are those that a parser at `p` takes. -/
def Fits (p : Precedence) (l : Nat) : Prop :=
  p ≤ .unary ∧ ∀ k op, BinaryOp.ofKind? k = some op → l ≤ strength k → p < .ofKind k

theorem fits_lowest : Fits .lowest 0 :=
  ⟨by decide, fun k op hk _ => (Precedence.lowest_lt_ofKind_iff k).mpr (.inl (by simp [hk]))⟩

/-- No operator between two operands binds as strongly as those before an operand. -/
theorem fits_of_le (hp : p ≤ .unary) (hl : Precedence.unary.rank ≤ l) : Fits p l := by
  refine ⟨hp, fun k op hk hm => absurd (Nat.le_trans hl hm) ?_⟩
  cases k <;> cases hk <;> decide

/-- A call or an index binds more strongly than whatever stands before an operand. -/
theorem fits_postfix {k : Kind} (hp : p ≤ .unary) (hk : .unary < Precedence.ofKind k) :
    Fits p (strength k) ∧ p < .ofKind k :=
  ⟨fits_of_le hp (Nat.le_of_lt hk), Nat.lt_of_le_of_lt hp hk⟩

theorem fits_ofKind {k : Kind} {op : BinaryOp} (h : BinaryOp.ofKind? k = some op) :
    Fits (.ofKind k) (strength k + 1) :=
  ⟨by cases k <;> cases h <;> decide, fun _ _ _ hl => hl⟩

/-- An expression read at `p` ends where these words begin. -/
def Stops (p : Precedence) (r : List Word) : Prop :=
  ¬p < .ofKind (headKind r) ∧ headKind r ≠ .kwElse

/-- The expression parser reads what is spelled by at most `n` words ahead and then stops. -/
def Complete (n : Nat) (expr : Precedence → Parse Expr) : Prop :=
  ∀ {p l e ws r c}, Expr.Spelled false l e ws → Fits p l → Stops p r → c.words = ws ++ r →
    c.words.length ≤ n → Reads (expr p) c r (fun e' => e'.erase = e.erase)

/-- Where nothing continues the expression in front, as at a closing mark. -/
abbrev Free (r : List Word) : Prop :=
  Stops .lowest r

theorem free_cons (r : List Word) {k : Kind}
    (h : Precedence.ofKind k = .lowest ∧ k ≠ .kwElse) : Free (.mark k :: r) := by
  refine ⟨?_, h.2⟩
  rw [headKind_cons, Word.kind, h.1]
  exact Nat.lt_irrefl _

theorem Complete.lowest (hE : Complete n expr) (h : Expr.Spelled false l e ws) (hr : Free r)
    (hc : c.words = ws ++ r) (hn : c.words.length ≤ n) :
    Reads (expr .lowest) c r (fun e' => e'.erase = e.erase) :=
  hE (h.mono (Nat.zero_le _)) fits_lowest hr hc hn

/-! ## Lists -/

theorem listTail_complete (hE : Complete n expr) {es : List Expr} {ws : List Word}
    (h : Expr.SpelledTail false es ws) : ∀ {m : Nat} {c : Cursor} {r : List Word}, Free r →
      headKind r ≠ .comma → c.Before (ws ++ r) → (ws ++ r).length ≤ n → ws.length ≤ m →
      Reads (listTail expr m) c r (fun es' => Expr.eraseAll es' = Expr.eraseAll es) := by
  match h with
  | .nil =>
      intro m c r _ hk hc _ _
      cases m with
      | zero => exact .pure hc rfl
      | succ m => exact .decline hc hk (.pure hc rfl)
  | @Expr.SpelledTail.cons _ _ _ ws vs he hes =>
      intro m c r hr hk hc hn hm
      simp only [List.cons_append, List.append_assoc, List.length_cons, List.length_append]
        at hc hn hm
      obtain ⟨m, rfl⟩ := Nat.exists_eq_add_one_of_ne_zero (by omega : m ≠ 0)
      have hfree : Free (vs ++ r) := by
        cases hes with
        | nil => exact hr
        | cons => exact free_cons _ (by decide)
      refine .accept hc rfl fun c1 h1 => ?_
      refine .advance (Cursor.before_of_words h1) fun c2 h2 => ?_
      refine .bind (hE.lowest he hfree h2 (by simp only [h2, List.length_append]; omega))
        fun e' c3 he' h3 => ?_
      refine .bind (listTail_complete hE hes hr hk h3 (by simp only [List.length_append]; omega)
        (by omega)) fun es' c4 hes' h4 => .pure h4 ?_
      simp only [Expr.respanAll, he', hes']

/-- From the opening mark to the closing one. -/
theorem list_complete (hE : Complete n expr) {es : List Expr} {close : Kind} {m : Nat}
    (h : Expr.SpelledList false es ws) (hclose : close = .rightParen ∨ close = .rightBracket)
    (hc : c.Before (ws ++ .mark close :: r)) (hn : (ws ++ .mark close :: r).length ≤ n)
    (hm : ws.length ≤ m) :
    Reads (list expr m close) c r (fun es' => Expr.eraseAll es' = Expr.eraseAll es) := by
  have hfree : Free (.mark close :: r) := free_cons r (by rcases hclose with rfl | rfl <;> decide)
  have hcomma : headKind (.mark close :: r) ≠ .comma := by
    rcases hclose with rfl | rfl <;> exact nofun
  cases h with
  | nil => exact .accept hc rfl fun c1 h1 => .pure (Cursor.before_of_words h1) rfl
  | @cons e es us vs he hes =>
      simp only [List.append_assoc, List.length_append] at hc hn hm
      have hfree' : Free (vs ++ .mark close :: r) := by
        cases hes with
        | nil => exact hfree
        | cons => exact free_cons _ (by decide)
      have hopen : headKind (us ++ (vs ++ .mark close :: r)) ≠ close :=
        he.headKind_ne (by rcases hclose with rfl | rfl <;> rfl) _
      refine .decline hc hopen (.advance hc fun c1 h1 => ?_)
      refine .bind (hE.lowest he hfree' h1 (by simp only [h1, List.length_append]; omega))
        fun e' c2 he' h2 => ?_
      refine .bind (listTail_complete hE hes hfree hcomma h2 ?_ (by omega)) fun es' c3 hes' h3 => ?_
      · simp only [List.length_append]
        omega
      refine .expect h3 rfl fun c4 h4 => .pure (Cursor.before_of_words h4) ?_
      simp only [Expr.respanAll, he', hes']

theorem paramsTail_complete (ps : List Ident) : ∀ {m : Nat} {c : Cursor} {r : List Word},
    headKind r ≠ .comma →
    c.Before ((ps.flatMap fun q : Ident => [.mark .comma, .ident q.name]) ++ r) → ps.length ≤ m →
      Reads (paramsTail m) c r (fun qs => qs.map Ident.erase = ps.map Ident.erase) := by
  induction ps with
  | nil =>
      intro m c r hk hc _
      cases m with
      | zero => exact .pure hc rfl
      | succ m => exact .decline hc hk (.pure hc rfl)
  | cons p ps ih =>
      intro m c r hk hc hm
      obtain ⟨m, rfl⟩ := Nat.exists_eq_add_one_of_ne_zero
        (by simp only [List.length_cons] at hm; omega : m ≠ 0)
      simp only [List.flatMap_cons, List.cons_append, List.nil_append] at hc
      refine .accept hc rfl fun c1 h1 => ?_
      refine .expect (Cursor.before_of_words h1) rfl fun c2 h2 => .currentIdent ?_
      have hname := (Token.word_ident (Cursor.kind_of_words h2)).symm.trans
        (Cursor.current_of_words h2)
      refine .bind (ih hk (Cursor.before_of_words h2) (Nat.le_of_succ_le_succ hm))
        fun qs c3 hqs h3 => .pure h3 ?_
      simp [hqs, Ident.respan, Word.ident.inj hname]

theorem params_complete {ps : List Ident} {m : Nat}
    (hc : c.Before (Ident.spellings ps ++ .mark .rightParen :: r)) (hm : ps.length ≤ m) :
    Reads (params m) c r (fun qs => qs.map Ident.erase = ps.map Ident.erase) := by
  cases ps with
  | nil => exact .accept hc rfl fun c1 h1 => .pure (Cursor.before_of_words h1) rfl
  | cons p ps =>
      simp only [Ident.spellings, List.cons_append] at hc
      refine .decline hc nofun (.expect hc rfl fun c1 h1 => .currentIdent ?_)
      have hname := (Token.word_ident (Cursor.kind_of_words h1)).symm.trans
        (Cursor.current_of_words h1)
      refine .bind (paramsTail_complete ps (r := .mark .rightParen :: r) nofun
        (Cursor.before_of_words h1) (Nat.le_of_succ_le hm)) fun qs c2 hqs h2 => ?_
      refine .expect h2 rfl fun c3 h3 => .pure (Cursor.before_of_words h3) ?_
      simp [hqs, Ident.respan, Word.ident.inj hname]

theorem pairs_complete (hE : Complete n expr) {ps : List (Expr × Expr)} {ws : List Word}
    (h : Expr.SpelledPairs false ps ws) : ∀ {m : Nat} {c : Cursor} {r : List Word},
      c.Before (ws ++ .mark .rightBrace :: r) → (ws ++ .mark .rightBrace :: r).length ≤ n →
      ws.length < m →
      Reads (pairs expr m) c (.mark .rightBrace :: r)
        (fun ps' => Expr.erasePairs ps' = Expr.erasePairs ps) := by
  match h with
  | .nil =>
      intro m c r hc _ hm
      obtain ⟨m, rfl⟩ := Nat.exists_eq_add_one_of_ne_zero (Nat.ne_of_gt hm)
      exact .peekKind hc (.pure hc rfl)
  | @Expr.SpelledPairs.cons _ _ _ ps ks vs _ ws hk hv hcomma hps =>
      intro m c r hc hn hm
      simp only [List.append_assoc, List.cons_append, List.length_append, List.length_cons]
        at hc hn hm
      obtain ⟨m, rfl⟩ := Nat.exists_eq_add_one_of_ne_zero (Nat.ne_of_gt (Nat.zero_lt_of_lt hm))
      refine .peekKind hc ?_
      rw [if_neg (hk.headKind_ne rfl _)]
      refine .advance hc fun c1 h1 => ?_
      refine .bind (hE.lowest hk (free_cons _ (by decide)) h1 ?_) fun key c2 hkey h2 => ?_
      · simp only [h1, List.length_append, List.length_cons]; omega
      refine .expect h2 rfl fun c3 h3 => .advance (Cursor.before_of_words h3) fun c4 h4 => ?_
      cases hcomma with
      | written =>
          simp only [List.cons_append, List.nil_append, List.length_cons, List.length_nil]
            at h4 hn hm
          refine .bind (hE.lowest hv (free_cons _ (by decide)) h4 ?_) fun value c5 hvalue h5 => ?_
          · simp only [h4, List.length_append, List.length_cons]; omega
          refine .peekKind h5 ?_
          refine .expect h5 rfl fun c6 h6 => ?_
          refine .bind (pairs_complete hE hps (Cursor.before_of_words h6) ?_ (by omega))
            fun ps' c7 hps' h7 => .pure h7 ?_
          · simp only [List.length_append, List.length_cons]; omega
          simp only [Expr.respanPairs, hkey, hvalue, hps']
      | omitted hnil =>
          subst hnil
          cases hps
          refine .bind (hE.lowest hv (free_cons _ (by decide)) h4 ?_) fun value c5 hvalue h5 => ?_
          · simp only [h4, List.nil_append, List.length_append, List.length_cons]; omega
          refine .peekKind h5 ?_
          obtain ⟨m, rfl⟩ := Nat.exists_eq_add_one_of_ne_zero (by omega : m ≠ 0)
          refine .bind (.peekKind h5 (.pure (P := (· = [])) h5 rfl)) fun ps' c6 hps' h6 =>
            .pure h6 ?_
          simp [hps', hkey, hvalue]

/-! ## Statements -/

/-- What may follow the last statement of a list. -/
def Closes (r : List Word) : Prop :=
  headKind r = .rightBrace ∨ headKind r = .eof

theorem Closes.free (h : Closes r) : Free r := by
  rcases h with h | h <;> (rw [Free, Stops, h]; decide)

theorem free_semicolon (h : Mark .semicolon (Closes r) ws) : Free (ws ++ r) := by
  cases h with
  | written => exact free_cons r (by decide)
  | omitted hr => exact hr.free

theorem semicolon_complete (h : Mark .semicolon (Closes r) ws) (hc : c.Before (ws ++ r)) :
    Reads (accept .semicolon) c r (fun _ => True) := by
  cases h with
  | written =>
      exact ⟨true, _, accept_of_eq (Cursor.peek_kind hc), trivial,
        Cursor.before_of_words (Cursor.advance_words hc)⟩
  | omitted hr =>
      have hk : c.peek.kind ≠ .semicolon := by
        rw [Cursor.peek_kind hc, List.nil_append]
        rcases hr with hr | hr <;> rw [hr] <;> decide
      exact ⟨false, c, accept_of_ne hk, trivial, hc⟩

theorem stmt_complete (hE : Complete n expr) {s : Stmt} {vs : List Word}
    (h : Stmt.Spelled false s ws) (hm : Mark .semicolon (Closes r) vs)
    (hc : c.words = ws ++ (vs ++ r)) (hn : c.words.length ≤ n) :
    Reads (stmt expr) c r (fun s' => s'.erase = s.erase) := by
  have hfree := free_semicolon hm
  have hk : c.current.kind = headKind (ws ++ (vs ++ r)) := hc ▸ c.current_kind
  cases h with
  | @bind target value us _ he =>
      simp only [List.cons_append] at hc hk
      refine .current ?_
      rw [hk]
      refine .current (.expect (Cursor.before_of_words hc) rfl fun c1 h1 => .currentIdent ?_)
      have hname := (Token.word_ident (Cursor.kind_of_words h1)).symm.trans
        (Cursor.current_of_words h1)
      refine .expect (Cursor.before_of_words h1) rfl fun c2 h2 => ?_
      refine .advance (Cursor.before_of_words h2) fun c3 h3 => ?_
      refine .bind (hE.lowest he hfree h3 ?_) fun value' c4 hvalue h4 => ?_
      · rw [hc] at hn
        simp only [h3, List.length_cons] at hn ⊢
        omega
      refine .bind (semicolon_complete hm h4) fun _ c5 _ h5 => .current (.pure h5 ?_)
      simp [Ident.respan, hvalue, Word.ident.inj hname]
  | @ret value us _ he =>
      simp only [List.cons_append] at hc hk
      refine .current ?_
      rw [hk]
      refine .current (.advance (Cursor.before_of_words hc) fun c1 h1 => ?_)
      refine .bind (hE.lowest he hfree h1 ?_) fun value' c2 hvalue h2 => ?_
      · rw [hc] at hn
        simp only [h1, List.length_cons] at hn ⊢
        omega
      refine .bind (semicolon_complete hm h2) fun _ c3 _ h3 => .current (.pure h3 ?_)
      simp [hvalue]
  | expr he =>
      refine .congr ?_ (stmt_of_ne (hk ▸ he.headKind_ne rfl _) (hk ▸ he.headKind_ne rfl _))
      refine .bind (hE.lowest he hfree hc hn) fun value' c1 hvalue h1 => ?_
      refine .bind (semicolon_complete hm h1) fun _ c2 _ h2 => .pure h2 ?_
      simp [hvalue]

/-- What the statement before some statements may leave out is settled by what follows it. -/
theorem mark_of_list {ss : List Stmt} {vs us : List Word} (hss : Stmt.SpelledList false ss us)
    (hr : Closes r) (hm : Mark .semicolon (false = true ∨ ss = []) vs) :
    Mark .semicolon (Closes (us ++ r)) vs := by
  cases hm with
  | written => exact .written
  | omitted h =>
      rcases h with h | rfl
      · cases h
      · cases hss
        exact .omitted hr

theorem stmts_complete (hE : Complete n expr) {ss : List Stmt} {ws : List Word}
    (h : Stmt.SpelledList false ss ws) : ∀ {m : Nat} {c : Cursor} {r : List Word},
      c.words = ws ++ .mark .rightBrace :: r → c.words.length ≤ n → ws.length < m →
      Reads (stmts expr m) c r (fun ss' => Stmt.eraseAll ss' = Stmt.eraseAll ss) := by
  match h with
  | .nil =>
      intro m c r hc _ hm
      obtain ⟨m, rfl⟩ := Nat.exists_eq_add_one_of_ne_zero (Nat.ne_of_gt hm)
      exact ⟨[], c, stmts_of_rightBrace (Cursor.kind_of_words hc), rfl, Cursor.before_of_words hc⟩
  | @Stmt.SpelledList.cons _ _ _ ws semicolon vs hs hmark hss =>
      intro m c r hc hn hm
      have hpos := hs.length_pos
      simp only [List.append_assoc, List.length_append] at hc hn hm
      obtain ⟨m, rfl⟩ := Nat.exists_eq_add_one_of_ne_zero (Nat.ne_of_gt (Nat.zero_lt_of_lt hm))
      have hk : c.current.kind = headKind (ws ++ (semicolon ++ (vs ++ .mark .rightBrace :: r))) :=
        hc ▸ c.current_kind
      have hm' := mark_of_list (r := .mark .rightBrace :: r) hss (.inl rfl) hmark
      have heof : c.current.kind ≠ .eof :=
        hk ▸ hs.headKind_ne (k := .eof) rfl nofun nofun _
      have hbrace : c.current.kind ≠ .rightBrace :=
        hk ▸ hs.headKind_ne (k := .rightBrace) rfl nofun nofun _
      refine .congr ?_ (stmts_of_ne heof hbrace)
      refine .bind (stmt_complete hE hs hm' hc hn) fun s' c1 hs' h1 => ?_
      refine .advance h1 fun c2 h2 => ?_
      refine .bind (stmts_complete hE hss h2 ?_ (by omega)) fun ss' c3 hss' h3 => .pure h3 ?_
      · rw [hc] at hn
        simp only [h2, List.length_append] at hn ⊢
        omega
      simp only [Stmt.respanAll, hs', hss']

theorem block_complete (hE : Complete n expr) {b : Block} (h : Block.Spelled false b ws)
    (hc : c.words = ws ++ r) (hn : c.words.length ≤ n + 1) :
    Reads (block expr n) c r (fun b' => b'.erase = b.erase) := by
  obtain ⟨hss⟩ := h
  simp only [List.cons_append, List.append_assoc, List.nil_append] at hc
  rw [hc] at hn
  simp only [List.length_cons, List.length_append] at hn
  refine .current (.advance (Cursor.before_of_words hc) fun c1 h1 => ?_)
  refine .bind (stmts_complete hE hss h1 ?_ (by omega)) fun ss' c2 hss' h2 => .current (.pure h2 ?_)
  · simp only [h1, List.length_append, List.length_cons]
    omega
  simp only [Block.respan, hss']

/-! ## Operands -/

theorem cond_complete (hE : Complete n expr) {e : Expr} {ws : List Word}
    (h : Expr.SpelledCond false e ws) : ∀ {m : Nat} {c : Cursor} {r : List Word},
      headKind r ≠ .kwElse → c.words = ws ++ r → c.words.length ≤ n + 1 →
      c.words.length ≤ m + 1 →
      Reads (Parse.cond expr n m) c r (fun e' => e'.erase = e.erase) := by
  match h with
  | @Expr.SpelledCond.mk _ _ _ _ ts ys _ _ ht hy hno =>
      intro m c r hr hc hn hm
      simp only [List.cons_append, List.append_assoc] at hc
      rw [hc] at hn hm
      simp only [List.length_cons, List.length_append] at hn hm
      obtain ⟨m, rfl⟩ := Nat.exists_eq_add_one_of_ne_zero (by omega : m ≠ 0)
      refine .current (.expect (Cursor.before_of_words hc) rfl fun c1 h1 => ?_)
      refine .advance (Cursor.before_of_words h1) fun c2 h2 => ?_
      refine .bind (hE.lowest ht (free_cons _ (by decide)) h2 ?_) fun test' c3 htest h3 => ?_
      · simp only [h2, List.length_append, List.length_cons]; omega
      refine .expect h3 rfl fun c4 h4 => ?_
      obtain ⟨vs, rfl⟩ := hy.head
      simp only [List.cons_append, List.length_cons] at h4 hn hm
      refine .expect (Cursor.before_of_words h4) rfl fun c5 h5 => ?_
      refine .bind (block_complete hE hy h5 ?_) fun yes' c6 hyes h6 => ?_
      · simp only [h5, List.length_append, List.length_cons]; omega
      cases hno with
      | absent =>
          refine .decline h6 hr (.current (.pure h6 ?_))
          simp only [Expr.respan, htest, hyes]
      | @block b us hb =>
          obtain ⟨us, rfl⟩ := hb.head
          simp only [List.cons_append, List.length_cons] at h6 hn
          refine .accept h6 rfl fun c7 h7 => ?_
          refine .decline (Cursor.before_of_words h7) nofun ?_
          refine .expect (Cursor.before_of_words h7) rfl fun c8 h8 => ?_
          refine .bind (block_complete hE hb h8 ?_) fun no' c9 hno' h9 => .current (.pure h9 ?_)
          · simp only [h8, List.length_append, List.length_cons]; omega
          simp only [Expr.respan, htest, hyes, hno']
      | @elseIf e' us s s' hif =>
          obtain ⟨us, rfl⟩ := hif.head
          simp only [List.cons_append, List.length_cons] at h6 hn hm
          refine .accept h6 rfl fun c7 h7 => ?_
          refine .accept (Cursor.before_of_words h7) rfl fun c8 h8 => ?_
          refine .bind (cond_complete hE hif hr h8 ?_ ?_)
            fun no' c9 hno' h9 => .current (.pure h9 ?_)
          · simp only [h8, List.length_append, List.length_cons]; omega
          · simp only [h8, List.length_append, List.length_cons]; omega
          simp [htest, hyes, hno']

theorem grouped_complete (hE : Complete n expr) (h : Expr.Spelled false 0 e ws)
    (hc : c.words = .mark .leftParen :: (ws ++ .mark .rightParen :: r))
    (hn : c.words.length ≤ n + 1) : Reads (grouped expr) c r (fun e' => e'.erase = e.erase) := by
  refine .advance (Cursor.before_of_words hc) fun c1 h1 => ?_
  refine .bind (hE.lowest h (free_cons r (by decide)) h1 ?_) fun e' c2 he' h2 => ?_
  · rw [hc] at hn
    rw [h1]
    exact Nat.le_of_succ_le_succ hn
  exact .expect h2 rfl fun c3 h3 => .pure (Cursor.before_of_words h3) he'

theorem unary_complete (hE : Complete n expr) {op : UnaryOp} {w : Word} {s : Span}
    (h : Expr.Spelled false Precedence.unary.rank e ws) (hr : Stops .unary r)
    (hc : c.words = w :: (ws ++ r)) (hn : c.words.length ≤ n + 1) :
    Reads (unary expr op) c r (fun e' => e'.erase = (Expr.unary op e s).erase) := by
  refine .current (.advance (Cursor.before_of_words hc) fun c1 h1 => ?_)
  have hfits := fits_of_le (p := .unary) (Nat.le_refl _) (Nat.le_refl _)
  refine .bind (hE h hfits hr h1 ?_) fun e' c2 he' h2 => .pure h2 ?_
  · rw [hc] at hn
    rw [h1]
    exact Nat.le_of_succ_le_succ hn
  simp only [Expr.respan, he']

theorem function_complete (hE : Complete n expr) {ps : List Ident} {body : Block} {s : Span}
    (h : Block.Spelled false body ws)
    (hc : c.words = .mark .kwFn :: .mark .leftParen :: (Ident.spellings ps ++
      .mark .rightParen :: (ws ++ r)))
    (hn : c.words.length ≤ n + 1) :
    Reads (function expr n) c r (fun e' => e'.erase = (Expr.fn ps body s).erase) := by
  obtain ⟨vs, rfl⟩ := h.head
  have hps := Ident.length_le_spellings ps
  rw [hc] at hn
  simp only [List.cons_append, List.length_cons, List.length_append] at hc hn
  refine .current (.expect (Cursor.before_of_words hc) rfl fun c1 h1 => ?_)
  refine .bind (params_complete (Cursor.before_of_words h1) (by omega)) fun ps' c2 hps' h2 => ?_
  refine .expect h2 rfl fun c3 h3 => ?_
  refine .bind (block_complete hE h h3 ?_) fun body' c4 hbody h4 => .current (.pure h4 ?_)
  · simp only [h3, List.length_cons, List.length_append]
    omega
  simp only [Expr.respan, hps', hbody]

theorem array_complete (hE : Complete n expr) {items : List Expr} {s : Span}
    (h : Expr.SpelledList false items ws)
    (hc : c.words = .mark .leftBracket :: (ws ++ .mark .rightBracket :: r))
    (hn : c.words.length ≤ n + 1) :
    Reads (array expr n) c r (fun e' => e'.erase = (Expr.array items s).erase) := by
  rw [hc] at hn
  have hn' := Nat.le_of_succ_le_succ hn
  have hm : ws.length ≤ n := by
    simp only [List.length_append] at hn'
    omega
  refine .current (.bind (list_complete hE h (.inr rfl) (Cursor.before_of_words hc) hn' hm)
    fun items' c1 hitems h1 => .current (.pure h1 ?_))
  simp only [Expr.respan, hitems]

theorem hash_complete (hE : Complete n expr) {ps : List (Expr × Expr)} {s : Span}
    (h : Expr.SpelledPairs false ps ws)
    (hc : c.words = .mark .leftBrace :: (ws ++ .mark .rightBrace :: r))
    (hn : c.words.length ≤ n + 1) :
    Reads (Parse.hash expr n) c r (fun e' => e'.erase = (Expr.hash ps s).erase) := by
  rw [hc] at hn
  have hn' := Nat.le_of_succ_le_succ hn
  have hm : ws.length < n := by
    simp only [List.length_append, List.length_cons] at hn'
    omega
  refine .current (.bind (pairs_complete hE h (Cursor.before_of_words hc) hn' hm)
    fun ps' c1 hps' h1 => ?_)
  refine .expect h1 rfl fun c2 h2 => .current (.pure (Cursor.before_of_words h2) ?_)
  simp only [Expr.respan, hps']

/-! ## Operators -/

/-- The operand at `c`, and the operators behind it that are taken first, amount to `e`; the others
are still to be taken, where the words `r` follow. -/
def ReadsOn (n : Nat) (expr : Precedence → Parse Expr) (p : Precedence) (c : Cursor) (e : Expr)
    (ws r : List Word) : Prop :=
  ∃ k e' c', k < ws.length ∧ e'.erase = e.erase ∧ c'.Before r ∧
    ∀ m, (operand expr n >>= operators expr n p (k + m)) c = operators expr n p m e' c'

theorem ReadsOn.of_operand {w : Word}
    (h : Reads (operand expr n) c r (fun e' => e'.erase = e.erase)) :
    ReadsOn n expr p c e (w :: ws) r := by
  obtain ⟨e', c', hrun, he, hr⟩ := h
  refine ⟨0, e', c', Nat.zero_lt_succ _, he, hr, fun m => ?_⟩
  rw [bind_of_ok hrun, Nat.zero_add]

theorem operators_of_lt {lhs : Expr} {m : Nat} (h : p < .ofKind c.peek.kind) :
    operators expr n p (m + 1) lhs c =
      (operator expr n lhs >>= operators expr n p m) c.advance := by
  rw [operators, bind_of_ok (peekKind_apply c), if_pos h]
  rfl

theorem operator_of_ofKind {lhs : Expr} {op : BinaryOp}
    (h : BinaryOp.ofKind? c.current.kind = some op) :
    operator expr n lhs c = binary expr op (.ofKind c.current.kind) lhs c := by
  generalize hk : c.current.kind = k at h
  rw [operator, bind_of_ok (current_apply c), hk]
  cases k <;> cases h <;> rfl

/-- One operator more. -/
theorem ReadsOn.step {lhs : Expr} {k : Kind} {ls rs : List Word} (hp : p < .ofKind k)
    (hc : c.words = ls ++ .mark k :: (rs ++ r))
    (hl : ReadsOn n expr p c lhs ls (.mark k :: (rs ++ r)))
    (hop : ∀ lhs' c', lhs'.erase = lhs.erase → c'.words = .mark k :: (rs ++ r) →
      c'.words.length ≤ c.words.length → Reads (operator expr n lhs') c' r
        (fun e' => e'.erase = e.erase)) :
    ReadsOn n expr p c e (ls ++ .mark k :: rs) r := by
  obtain ⟨i, lhs', c1, hi, hlhs, h1, hrun⟩ := hl
  have hwords := Cursor.advance_words h1
  have hlen : c1.advance.words.length ≤ c.words.length := by
    rw [hwords, hc, List.length_append]
    exact Nat.le_add_left _ _
  obtain ⟨e', c2, hrun', he, h2⟩ := hop lhs' c1.advance hlhs hwords hlen
  refine ⟨i + 1, e', c2, ?_, he, h2, fun m => ?_⟩
  · simp only [List.length_append, List.length_cons]
    omega
  have hlt : p < .ofKind c1.peek.kind := by rwa [Cursor.peek_kind h1, headKind_cons, Word.kind]
  rw [Nat.add_assoc, Nat.add_comm 1 m, hrun, operators_of_lt hlt, bind_of_ok hrun']

theorem call_complete (hE : Complete n expr) {callee lhs : Expr} {args : List Expr} {s : Span}
    (h : Expr.SpelledList false args ws) (hl : lhs.erase = callee.erase)
    (hc : c.words = .mark .leftParen :: (ws ++ .mark .rightParen :: r))
    (hn : c.words.length ≤ n + 1) :
    Reads (operator expr n lhs) c r (fun e' => e'.erase = (Expr.call callee args s).erase) := by
  rw [hc] at hn
  have hn' := Nat.le_of_succ_le_succ hn
  have hm : ws.length ≤ n := by
    simp only [List.length_append] at hn'
    omega
  refine .current ?_
  rw [Cursor.kind_of_words hc]
  refine .bind (list_complete hE h (.inl rfl) (Cursor.before_of_words hc) hn' hm)
    fun args' c1 hargs h1 => .current (.pure h1 ?_)
  simp only [Expr.respan, hl, hargs]

theorem index_complete (hE : Complete n expr) {object key lhs : Expr} {s : Span}
    (h : Expr.Spelled false 0 key ws) (hl : lhs.erase = object.erase)
    (hc : c.words = .mark .leftBracket :: (ws ++ .mark .rightBracket :: r))
    (hn : c.words.length ≤ n + 1) :
    Reads (operator expr n lhs) c r (fun e' => e'.erase = (Expr.index object key s).erase) := by
  refine .current ?_
  rw [Cursor.kind_of_words hc]
  refine .advance (Cursor.before_of_words hc) fun c1 h1 => ?_
  refine .bind (hE.lowest h (free_cons r (by decide)) h1 ?_) fun key' c2 hkey h2 => ?_
  · rw [hc] at hn
    rw [h1]
    exact Nat.le_of_succ_le_succ hn
  refine .expect h2 rfl fun c3 h3 => .current (.pure (Cursor.before_of_words h3) ?_)
  simp only [Expr.respan, hl, hkey]

theorem binary_complete (hE : Complete n expr) {op : BinaryOp} {k : Kind} {lhs lhs' rhs : Expr}
    {s : Span} (hop : BinaryOp.ofKind? k = some op)
    (h : Expr.Spelled false (strength k + 1) rhs ws) (hl : lhs'.erase = lhs.erase)
    (hr : Stops (.ofKind k) r) (hc : c.words = .mark k :: (ws ++ r))
    (hn : c.words.length ≤ n + 1) :
    Reads (operator expr n lhs') c r (fun e' => e'.erase = (Expr.binary op lhs rhs s).erase) := by
  refine .congr ?_ (operator_of_ofKind (by rwa [Cursor.kind_of_words hc]))
  refine .advance (Cursor.before_of_words hc) fun c1 h1 => ?_
  rw [Cursor.kind_of_words hc]
  refine .bind (hE h (fits_ofKind hop) hr h1 ?_) fun rhs' c2 hrhs h2 => .pure h2 ?_
  · rw [hc] at hn
    rw [h1]
    exact Nat.le_of_succ_le_succ hn
  simp only [Expr.respan, hl, hrhs]

/-! ## Expressions -/

/-- What follows an operand of strength `l` read at `p` binds no more strongly than the operand's
own operators or than the place. -/
def Weak (p : Precedence) (l : Nat) (r : List Word) : Prop :=
  (strength (headKind r) ≤ l ∨ strength (headKind r) ≤ p.rank) ∧ headKind r ≠ .kwElse

theorem Weak.stops {q : Precedence} (h : Weak p l r) (hl : l ≤ q.rank) (hp : p ≤ q) : Stops q r :=
  ⟨Nat.not_lt.mpr (h.1.elim (Nat.le_trans · hl) (Nat.le_trans · hp)), h.2⟩

theorem Fits.mono {m : Nat} (h : Fits p l) (hl : l ≤ m) : Fits p m :=
  ⟨h.1, fun k op hk hm => h.2 k op hk (Nat.le_trans hl hm)⟩

theorem weak_mark {k : Kind} (hk : k ≠ .kwElse) (r : List Word) :
    Weak p (strength k) (.mark k :: r) :=
  ⟨.inl (Nat.le_refl _), hk⟩

/-- An operand with the operators behind it, by recursion on how it is spelled. -/
theorem readsOn_complete (hE : Complete n expr) {l : Nat} {e : Expr} {ws : List Word}
    (h : Expr.Spelled false l e ws) : ∀ {r : List Word}, Fits p l → Weak p l r →
      c.words = ws ++ r → c.words.length ≤ n + 1 → ReadsOn n expr p c e ws r := by
  intro r hfit hweak hc hn
  match h with
  | .ident =>
      refine .of_operand (.current ?_)
      rw [Cursor.kind_of_words hc]
      have hname := (Token.word_ident (Cursor.kind_of_words hc)).symm.trans
        (Cursor.current_of_words hc)
      exact .pure (Cursor.before_of_words hc) (by rw [Word.ident.inj hname]; rfl)
  | .int hv =>
      refine .of_operand (.current ?_)
      rw [Cursor.kind_of_words hc]
      have hdigits := (Token.word_integer (Cursor.kind_of_words hc)).symm.trans
        (Cursor.current_of_words hc)
      refine .current ?_
      rw [Word.integer.inj hdigits, hv]
      exact .pure (Cursor.before_of_words hc) rfl
  | .yes =>
      refine .of_operand (.current ?_)
      rw [Cursor.kind_of_words hc]
      exact .pure (Cursor.before_of_words hc) rfl
  | .no =>
      refine .of_operand (.current ?_)
      rw [Cursor.kind_of_words hc]
      exact .pure (Cursor.before_of_words hc) rfl
  | .str =>
      refine .of_operand (.current ?_)
      rw [Cursor.kind_of_words hc]
      have htext := (Token.word_string (Cursor.kind_of_words hc)).symm.trans
        (Cursor.current_of_words hc)
      exact .pure (Cursor.before_of_words hc) (by rw [Word.string.inj htext]; rfl)
  | .grouped he =>
      simp only [List.cons_append, List.append_assoc, List.nil_append] at hc
      refine .of_operand (.current ?_)
      rw [Cursor.kind_of_words hc]
      exact grouped_complete hE he hc hn
  | .unary hop hl he =>
      refine .of_operand (.current ?_)
      rw [Cursor.kind_of_words hc]
      have hr := hweak.stops hl hfit.1
      rename_i k _ _ _ _
      cases k <;> cases hop <;> exact unary_complete hE he hr hc hn
  | @Expr.Spelled.binary _ _ k _ _ _ _ _ _ hop hk hl hr =>
      simp only [List.append_assoc, List.cons_append] at hc
      have helse : k ≠ .kwElse := by
        rintro rfl
        cases hop
      have hon := readsOn_complete hE hl (hfit.mono hk) (weak_mark helse _) hc hn
      refine hon.step (hfit.2 _ _ hop hk) hc fun lhs' c' hlhs hc' hlen => ?_
      have hr' := hweak.stops hk (Nat.le_of_lt (hfit.2 _ _ hop hk))
      exact binary_complete hE hop hr hlhs hr' hc' (Nat.le_trans hlen hn)
  | .cond he =>
      obtain ⟨us, rfl⟩ := he.head
      refine .of_operand (.current ?_)
      rw [Cursor.kind_of_words hc]
      exact cond_complete hE he hweak.2 hc hn (Nat.le_succ_of_le hn)
  | .fn hb =>
      simp only [List.cons_append, List.append_assoc] at hc
      refine .of_operand (.current ?_)
      rw [Cursor.kind_of_words hc]
      exact function_complete hE hb hc hn
  | @Expr.Spelled.call _ _ _ _ cs us _ hf ha =>
      have hc' : c.words = cs ++ .mark .leftParen :: (us ++ [.mark .rightParen] ++ r) := by
        simpa using hc
      obtain ⟨hfit', hlt⟩ := fits_postfix (k := .leftParen) hfit.1 (by decide)
      have hon := readsOn_complete hE hf hfit' (weak_mark (by decide) _) hc' hn
      rw [List.append_assoc, List.cons_append]
      refine hon.step hlt hc' fun lhs' c' hlhs hc' hlen => ?_
      exact call_complete hE ha hlhs (by simpa using hc') (Nat.le_trans hlen hn)
  | .array hi =>
      simp only [List.cons_append, List.append_assoc, List.nil_append] at hc
      refine .of_operand (.current ?_)
      rw [Cursor.kind_of_words hc]
      exact array_complete hE hi hc hn
  | @Expr.Spelled.index _ _ _ _ os ks _ ho hk =>
      have hc' : c.words = os ++ .mark .leftBracket :: (ks ++ [.mark .rightBracket] ++ r) := by
        simpa using hc
      obtain ⟨hfit', hlt⟩ := fits_postfix (k := .leftBracket) hfit.1 (by decide)
      have hon := readsOn_complete hE ho hfit' (weak_mark (by decide) _) hc' hn
      rw [List.append_assoc, List.cons_append]
      refine hon.step hlt hc' fun lhs' c' hlhs hc' hlen => ?_
      exact index_complete hE hk hlhs (by simpa using hc') (Nat.le_trans hlen hn)
  | .hash hp =>
      simp only [List.cons_append, List.append_assoc, List.nil_append] at hc
      refine .of_operand (.current ?_)
      rw [Cursor.kind_of_words hc]
      exact hash_complete hE hp hc hn

/-- The expression parser reads every expression that fits in its bound. -/
theorem expressionWithin_complete (n : Nat) : Complete n (expressionWithin n) := by
  induction n with
  | zero =>
      intro p l e ws r c h _ _ hc hn
      obtain ⟨w, vs, rfl, _⟩ := h.head
      simp [hc] at hn
  | succ n ih =>
      intro p l e ws r c h hfit hstop hc hn
      have hweak : Weak p l r := ⟨.inr (Nat.not_lt.mp hstop.1), hstop.2⟩
      obtain ⟨k, e', c', hk, he, hr, hrun⟩ := readsOn_complete ih h hfit hweak hc hn
      have hstop' : ¬p < .ofKind c'.peek.kind := by rw [Cursor.peek_kind hr]; exact hstop.1
      have hkn : k + (n - k) = n := by
        rw [hc, List.length_append] at hn
        omega
      have hrun' := (hrun (n - k)).trans (operators_of_not_lt hstop')
      rw [hkn] at hrun'
      exact ⟨e', c', hrun', he, hr⟩

/-- A statement is read up to its semicolon. -/
theorem statement_complete {s : Stmt} {vs : List Word} (h : Stmt.Spelled false s ws)
    (hm : Mark .semicolon (Closes r) vs) (hc : c.words = ws ++ (vs ++ r)) :
    Reads statement c r (fun s' => s'.erase = s.erase) := by
  have hrun : statement c = stmt (expressionWithin c.left) c := rfl
  refine .congr (stmt_complete (expressionWithin_complete c.left) h hm hc ?_) hrun
  rw [Cursor.words, List.length_map]
  exact Cursor.length_tokens_le_left c

end Monkey.Parse
