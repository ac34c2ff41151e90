import Monkey.Proofs.Parse.Outcome

/-!
# What parsers accept

Whatever a parser builds a tree from spells that tree in the lax grammar, and whatever it refuses it
blames on a token that it has reached. Each construct is followed on its own, given what the parser
of the expressions inside it does; the parser of expressions is then followed by induction on the
number of tokens ahead.
-/

namespace Monkey.Parse

open Cursor (Passes)

variable {α : Type} {n : Nat} {expr : Precedence → Parse Expr} {c : Cursor}

/-- The expression parser keeps to the grammar where at most `n` tokens are ahead, and stops only
where the next token binds no more tightly than asked for. -/
def Sound (n : Nat) (expr : Precedence → Parse Expr) : Prop :=
  ∀ p c, c.tokens.length ≤ n →
    Outcome c (fun e ts c' => Outcome.Whole (Expr.Spelled true p.floor) e ts c' ∧
      ¬p < .ofKind c'.peek.kind) (expr p c)

/-- The words behind the current token, up to and with the one at the place reached, are as `S`
says. -/
def Outcome.Behind (c : Cursor) (S : α → List Word → Prop) (a : α) (ts : List Token)
    (c' : Cursor) : Prop :=
  ¬c'.current.isEof ∧ ∃ ws, S a ws ∧ ts.map Token.word ++ [c'.current.word] = c.current.word :: ws

theorem length_advance (hc : ¬c.current.isEof) : c.advance.tokens.length + 1 = c.tokens.length := by
  rw [Cursor.tokens_eq_cons hc, List.length_cons]

theorem current_of_length_le (hn : c.tokens.length ≤ 0) : c.current.kind = .eof :=
  of_decide_eq_true (Cursor.isEof_of_length_le hn)

/-- With one token left, the next one is the end. -/
theorem peek_of_length_le (hc : ¬c.current.isEof) (hn : c.tokens.length ≤ 1) :
    c.peek.kind = .eof := by
  have hlen := length_advance hc
  have hpeek : c.advance.current.isEof := Cursor.isEof_of_length_le (by omega)
  exact of_decide_eq_true hpeek

/-! ## Lists -/

theorem listTail_sound (hE : Sound n expr) (m : Nat) :
    ∀ c : Cursor, ¬c.current.isEof → c.tokens.length ≤ n + 1 →
      Outcome c (Outcome.Behind c (Expr.SpelledTail true)) (listTail expr m c) := by
  induction m with
  | zero => exact fun c hc _ => .pure ⟨hc, [], .nil, rfl⟩
  | succ m ih =>
      intro c hc hn
      have hn' := length_advance hc
      refine .accept hc (fun hk => ?_) (fun _ => .pure ⟨hc, [], .nil, rfl⟩)
      have h1 := Token.not_isEof_of_kind hk nofun
      have hn1 := length_advance h1
      refine .advance h1 (.bind (hE _ _ (by omega)) fun e ts c2 hp ⟨⟨h2, hs⟩, _⟩ => ?_)
      have hn2 := hp.length_tokens_le
      refine .bind (ih c2 h2 (by omega)) fun es us c3 _ ⟨h3, ws, ht, hw⟩ => ?_
      refine .pure ⟨h3, _, .cons (hs.mono (Nat.zero_le _)) ht, ?_⟩
      simp [hw, Token.word_mark hk rfl]

theorem list_sound (hE : Sound n expr) (m : Nat) {close : Kind}
    (hk : close.isMark) (hc : ¬c.current.isEof) (hn : c.tokens.length ≤ n + 1) :
    Outcome c (Outcome.Behind c fun es ws => ∃ vs, Expr.SpelledList true es vs ∧
      ws = vs ++ [.mark close]) (list expr m close c) := by
  have hn' := length_advance hc
  refine .accept hc (fun h => ?_) (fun _ => ?_)
  · exact .pure ⟨Token.not_isEof_of_kind h (Kind.ne_eof_of_isMark hk), _, ⟨[], .nil, rfl⟩, by
      simp [Token.word_mark h hk]⟩
  refine .advance hc (.bind (hE _ _ (by omega)) fun e ts c1 hp ⟨⟨h1, hs⟩, _⟩ => ?_)
  have hn1 := hp.length_tokens_le
  refine .bind (listTail_sound hE m c1 h1 (by omega)) fun es us c2 hp2 ⟨h2, ws, ht, hw⟩ => ?_
  refine .expect h2 fun h => .pure ⟨Token.not_isEof_of_kind h (Kind.ne_eof_of_isMark hk), _,
    ⟨_, .cons (hs.mono (Nat.zero_le _)) ht, rfl⟩, ?_⟩
  simp [hw, Token.word_mark h hk]

theorem paramsTail_sound (m : Nat) :
    ∀ c : Cursor, ¬c.current.isEof →
      Outcome c (Outcome.Behind c fun ps ws => ws = ps.flatMap fun q : Ident =>
        [.mark .comma, .ident q.name]) (paramsTail m c) := by
  induction m with
  | zero => exact fun c hc => .pure ⟨hc, [], rfl, rfl⟩
  | succ m ih =>
      intro c hc
      refine .accept hc (fun hk => ?_) (fun _ => .pure ⟨hc, [], rfl, rfl⟩)
      have h1 := Token.not_isEof_of_kind hk nofun
      refine .expect h1 fun hi => .currentIdent ?_
      have h2 := Token.not_isEof_of_kind hi nofun
      refine .bind (ih _ h2) fun ps us c3 _ ⟨h3, ws, hs, hw⟩ => .pure ⟨h3, _, rfl, ?_⟩
      simp [hw, hs, Token.word_mark hk rfl, Token.word_ident hi]

theorem params_sound (m : Nat) (hc : ¬c.current.isEof) :
    Outcome c (Outcome.Behind c fun ps ws => ws = Ident.spellings ps ++ [.mark .rightParen])
      (params m c) := by
  refine .accept hc (fun hk => ?_) (fun _ => ?_)
  · exact .pure ⟨Token.not_isEof_of_kind hk nofun, _, rfl, by
      simp [Ident.spellings, Token.word_mark hk rfl]⟩
  refine .expect hc fun hi => .currentIdent ?_
  have h1 := Token.not_isEof_of_kind hi nofun
  refine .bind (paramsTail_sound m _ h1) fun ps us c2 _ ⟨h2, ws, hs, hw⟩ => ?_
  refine .expect h2 fun hk => .pure ⟨Token.not_isEof_of_kind hk nofun, _, rfl, ?_⟩
  simp [hw, hs, Ident.spellings, Token.word_mark hk rfl, Token.word_ident hi]

/-- Behind the opening brace, or behind a comma; nothing follows if the next token is the closing
brace. -/
theorem pairs_sound (hE : Sound n expr) (m : Nat) :
    ∀ c : Cursor, ¬c.current.isEof → c.tokens.length ≤ n + 1 →
      Outcome c (fun ps ts c' => Outcome.Behind c (Expr.SpelledPairs true) ps ts c' ∧
        (c.peek.kind = .rightBrace → ps = [])) (pairs expr m c) := by
  induction m with
  | zero => exact fun c hc _ => .advance hc (.noOperand _)
  | succ m ih =>
      intro c hc hn
      have hn' := length_advance hc
      refine .peekKind ?_
      split
      · exact .pure ⟨⟨hc, [], .nil, rfl⟩, fun _ => rfl⟩
      rename_i hp
      refine .advance hc (.bind (hE _ _ (by omega)) fun key ks c1 hp1 ⟨⟨h1, hk⟩, _⟩ => ?_)
      have hn1 := hp1.length_tokens_le
      have hn1' := length_advance h1
      refine .expect h1 fun hcolon => ?_
      have h2 := Token.not_isEof_of_kind hcolon nofun
      have hn2 := length_advance h2
      refine .advance h2 (.bind (hE _ _ (by omega)) fun value vs c3 hp3 ⟨⟨h3, hv⟩, _⟩ => ?_)
      have hn3 := hp3.length_tokens_le
      have hn3' := length_advance h3
      refine .peekKind ?_
      split
      · refine .expect h3 fun hcomma => ?_
        have h4 := Token.not_isEof_of_kind hcomma nofun
        refine .bind (ih _ h4 (by omega)) fun ps us c5 _ ⟨⟨h5, ws, hs, hw⟩, _⟩ => .pure
          ⟨⟨h5, _, .cons (hk.mono (Nat.zero_le _)) (hv.mono (Nat.zero_le _)) .written hs, ?_⟩,
            fun h => absurd h hp⟩
        simp [hw, Token.word_mark hcolon rfl, Token.word_mark hcomma rfl]
      · rename_i hb
        refine .bind (ih _ h3 (by omega)) fun ps us c5 _ ⟨⟨h5, ws, hs, hw⟩, hnil⟩ => .pure
          ⟨⟨h5, _, .cons (hk.mono (Nat.zero_le _)) (hv.mono (Nat.zero_le _))
            (.omitted (hnil (by simpa using hb))) hs, ?_⟩, fun h => absurd h hp⟩
        simp [hw, Token.word_mark hcolon rfl]

/-! ## Statements -/

theorem semicolon_sound (hc : ¬c.current.isEof) :
    Outcome c (Outcome.Behind c fun _ => Mark .semicolon True) (accept .semicolon c) := by
  by_cases hk : c.peek.kind = .semicolon
  · rw [accept_of_eq hk]
    refine ⟨_, .one hc, Token.not_isEof_of_kind hk nofun, _, .written, ?_⟩
    simp [c.advance_current, Token.word_mark hk rfl]
  · rw [accept_of_ne hk]
    exact ⟨[], .refl c, hc, [], .omitted trivial, rfl⟩

theorem letStmt_sound (hE : Sound n expr) (hk : c.current.kind = .kwLet)
    (hn : c.tokens.length ≤ n + 1) :
    Outcome c (Outcome.Whole (Stmt.SpelledFull true)) (letStmt expr c) := by
  have hc := Token.not_isEof_of_kind hk nofun
  have hn' := length_advance hc
  refine .current (.expect hc fun hi => .currentIdent ?_)
  have h1 := Token.not_isEof_of_kind hi nofun
  have hn1 := length_advance h1
  refine .expect h1 fun ha => ?_
  have h2 := Token.not_isEof_of_kind ha nofun
  have hn2 := length_advance h2
  refine .advance h2 (.bind (hE _ _ (by omega)) fun e ts c3 _ ⟨⟨h3, hs⟩, _⟩ => ?_)
  refine .bind (semicolon_sound h3) fun _ us c4 _ ⟨h4, ws, hm, hw⟩ => .current (.pure ⟨h4, ?_⟩)
  refine ⟨_, ws, .bind (hs.mono (Nat.zero_le _)), hm, ?_⟩
  simp [hw, Token.word_mark hk rfl, Token.word_ident hi, Token.word_mark ha rfl]

theorem returnStmt_sound (hE : Sound n expr) (hk : c.current.kind = .kwReturn)
    (hn : c.tokens.length ≤ n + 1) :
    Outcome c (Outcome.Whole (Stmt.SpelledFull true)) (returnStmt expr c) := by
  have hc := Token.not_isEof_of_kind hk nofun
  have hn' := length_advance hc
  refine .current (.advance hc (.bind (hE _ _ (by omega)) fun e ts c1 _ ⟨⟨h1, hs⟩, _⟩ => ?_))
  refine .bind (semicolon_sound h1) fun _ us c2 _ ⟨h2, ws, hm, hw⟩ => .current (.pure ⟨h2, ?_⟩)
  refine ⟨_, ws, .ret (hs.mono (Nat.zero_le _)), hm, ?_⟩
  simp [hw, Token.word_mark hk rfl]

theorem exprStmt_sound (hE : Sound n expr) (hn : c.tokens.length ≤ n) :
    Outcome c (Outcome.Whole (Stmt.SpelledFull true)) (exprStmt expr c) := by
  refine .bind (hE _ _ hn) fun e ts c1 _ ⟨⟨h1, hs⟩, _⟩ => ?_
  refine .bind (semicolon_sound h1) fun _ us c2 _ ⟨h2, ws, hm, hw⟩ => .pure ⟨h2, ?_⟩
  refine ⟨_, ws, .expr (hs.mono (Nat.zero_le _)), hm, ?_⟩
  simp [hw]

theorem stmt_sound (hE : Sound n expr) (hn : c.tokens.length ≤ n) :
    Outcome c (Outcome.Whole (Stmt.SpelledFull true)) (stmt expr c) := by
  refine .current ?_
  cases hk : c.current.kind
  case kwLet => exact letStmt_sound hE hk (Nat.le_succ_of_le hn)
  case kwReturn => exact returnStmt_sound hE hk (Nat.le_succ_of_le hn)
  all_goals exact exprStmt_sound hE hn

theorem unclosed_sound {Q : α → List Token → Cursor → Prop} (hk : c.current.kind = .eof) :
    Outcome c Q ((unclosed : Parse α) c) :=
  ⟨⟨[], .refl c⟩, .inl ⟨rfl, hk.symm, by decide⟩⟩

/-- From the first token of the first statement to the closing brace. -/
theorem stmts_sound (hE : Sound n expr) (m : Nat) :
    ∀ c : Cursor, c.tokens.length ≤ m → c.tokens.length ≤ n →
      Outcome c (fun ss ts c' => c'.current.kind = .rightBrace ∧
        Stmt.SpelledList true ss (ts.map Token.word)) (stmts expr m c) := by
  induction m with
  | zero =>
      intro c hm _
      exact unclosed_sound (current_of_length_le hm)
  | succ m ih =>
      intro c hm hn
      by_cases hc : c.current.kind = .eof
      · rw [stmts_of_eof hc]
        exact unclosed_sound hc
      by_cases hk : c.current.kind = .rightBrace
      · rw [stmts_of_rightBrace hk]
        exact .pure ⟨hk, .nil⟩
      rw [stmts_of_ne hc hk]
      have hc : ¬c.current.isEof := by simpa [Token.isEof] using hc
      have hn' := length_advance hc
      refine .bind (stmt_sound hE hn) fun s ts c1 hp1 hwhole => ?_
      obtain ⟨h1, hs⟩ := hwhole
      have hn1 := hp1.length_tokens_le
      have hn1' := length_advance h1
      refine .advance h1 (.bind (ih _ (by omega) (by omega)) fun ss us c2 _ hrest => ?_)
      obtain ⟨h2, hss⟩ := hrest
      refine .pure ⟨h2, ?_⟩
      simpa using Stmt.SpelledList.cons_full hs hss

theorem block_sound (hE : Sound n expr) (hk : c.current.kind = .leftBrace)
    (hn : c.tokens.length ≤ n + 1) :
    Outcome c (Outcome.Whole (Block.Spelled true)) (block expr n c) := by
  have hc := Token.not_isEof_of_kind hk nofun
  have hn' := length_advance hc
  refine .current (.advance hc (.bind (stmts_sound hE n _ (by omega) (by omega))
    fun ss ts c1 _ ⟨h1, hs⟩ => .current (.pure ⟨Token.not_isEof_of_kind h1 nofun, ?_⟩)))
  have := Block.Spelled.mk (s := c.current.span.merge c1.current.span) hs
  simpa [Token.word_mark hk rfl, Token.word_mark h1 rfl] using this

/-! ## Operands -/

/-- The words spell an expression that may be the left operand of a token of kind `k`, and may stand
where the parser at `p` is. -/
def LeftOperand (p : Precedence) (e : Expr) (ws : List Word) (k : Kind) : Prop :=
  ∃ l, p.floor ≤ l ∧ Precedence.strength k ≤ l ∧ Expr.Spelled true l e ws

theorem LeftOperand.of_closed {p : Precedence} {e : Expr} {ws : List Word} {k : Kind}
    (h : ∀ l, Expr.Spelled true l e ws) : LeftOperand p e ws k :=
  ⟨Precedence.index.rank, Nat.le_trans p.floor_le (by decide), Precedence.strength_le k, h _⟩

theorem integer_sound (hk : c.current.kind = .integer) :
    Outcome c (Outcome.Whole fun e ws => ∀ l, Expr.Spelled true l e ws) (integer c) := by
  refine .current ?_
  cases hv : Text.int64? c.current.lexeme with
  | some i =>
      refine .pure ⟨Token.not_isEof_of_kind hk nofun, fun l => ?_⟩
      simpa [Token.word_integer hk] using Expr.Spelled.int hv
  | none => exact ⟨⟨[], .refl c⟩, .inl ⟨rfl, hk.symm, rfl⟩⟩

theorem grouped_sound (hE : Sound n expr) (hk : c.current.kind = .leftParen)
    (hn : c.tokens.length ≤ n + 1) :
    Outcome c (Outcome.Whole fun e ws => ∀ l, Expr.Spelled true l e ws) (grouped expr c) := by
  have hc := Token.not_isEof_of_kind hk nofun
  have hn' := length_advance hc
  refine .advance hc (.bind (hE _ _ (by omega)) fun e ts c1 _ ⟨⟨h1, hs⟩, _⟩ => ?_)
  refine .expect h1 fun hr => .pure ⟨Token.not_isEof_of_kind hr nofun, fun l => ?_⟩
  have := Expr.Spelled.grouped (n := l) (hs.mono (Nat.zero_le _))
  simpa [Token.word_mark hk rfl, Token.word_mark hr rfl] using this

theorem unary_sound (hE : Sound n expr) {op : UnaryOp} {k : Kind}
    (hop : UnaryOp.ofKind? k = some op) (hk : c.current.kind = k)
    (hn : c.tokens.length ≤ n + 1) :
    Outcome c (fun e ts c' => ¬c'.current.isEof ∧ ∀ p, LeftOperand p e
      (ts.map Token.word ++ [c'.current.word]) c'.peek.kind) (unary expr op c) := by
  have hm : k.isMark := by cases k <;> first | rfl | cases hop
  have hc := Token.not_isEof_of_kind hk (Kind.ne_eof_of_isMark hm)
  have hn' := length_advance hc
  refine .current (.advance hc (.bind (hE _ _ (by omega)) fun e ts c1 _ ⟨⟨h1, hs⟩, hp⟩ =>
    .pure ⟨h1, fun p => ⟨Precedence.unary.rank, p.floor_le, ?_, ?_⟩⟩))
  · exact Nat.le_of_not_lt hp
  · have := hs.mono (m := Precedence.unary.rank) (by decide)
    simpa [Token.word_mark hk hm] using Expr.Spelled.unary hop (Nat.le_refl _) this

theorem cond_sound (hE : Sound n expr) (m : Nat) :
    ∀ c : Cursor, c.current.kind = .kwIf → c.tokens.length ≤ n + 1 →
      Outcome c (Outcome.Whole (Expr.SpelledCond true)) (Parse.cond expr n m c) := by
  induction m with
  | zero => exact fun c _ _ => .noOperand c
  | succ m ih =>
      intro c hk hn
      have hc := Token.not_isEof_of_kind hk nofun
      have hn' := length_advance hc
      refine .current (.expect hc fun hl => ?_)
      have h1 := Token.not_isEof_of_kind hl nofun
      have hn1 := length_advance h1
      refine .advance h1 (.bind (hE _ _ (by omega)) fun test ts c2 hp2 ⟨⟨h2, ht⟩, _⟩ => ?_)
      have hn2 := hp2.length_tokens_le
      have hn2' := length_advance h2
      refine .expect h2 fun hr => ?_
      have h3 := Token.not_isEof_of_kind hr nofun
      have hn3 := length_advance h3
      refine .expect h3 fun hb => ?_
      refine .bind (block_sound hE hb (by omega)) fun yes ys c4 hp4 ⟨h4, hy⟩ => ?_
      have hn4 := hp4.length_tokens_le
      have hn4' := length_advance h4
      have hcond no ns s (hno : Block.SpelledElse true no ns) :=
        Expr.SpelledCond.mk (s := s) (ht.mono (Nat.zero_le _)) hy hno
      refine .accept h4 (fun he => ?_) (fun _ => ?_)
      · have h5 := Token.not_isEof_of_kind he nofun
        have hn5 := length_advance h5
        refine .accept h5 (fun hi => ?_) (fun _ => ?_)
        · refine .bind (ih _ hi (by omega)) fun nested ns c6 _ ⟨h6, hs⟩ => ?_
          refine .current (.pure ⟨h6, ?_⟩)
          have := hcond _ _ (c.current.span.merge c6.current.span)
            (@Block.SpelledElse.elseIf true nested _ nested.span nested.span hs)
          simpa [Token.word_mark hk rfl, Token.word_mark hl rfl,
            Token.word_mark hr rfl, Token.word_mark he rfl] using this
        · refine .expect h5 fun hb' => ?_
          refine .bind (block_sound hE hb' (by omega)) fun no ns c6 _ ⟨h6, hs⟩ => ?_
          refine .current (.pure ⟨h6, ?_⟩)
          have := hcond _ _ (c.current.span.merge c6.current.span) (.block hs)
          simpa [Token.word_mark hk rfl, Token.word_mark hl rfl,
            Token.word_mark hr rfl, Token.word_mark he rfl] using this
      · refine .current (.pure ⟨h4, ?_⟩)
        have := hcond _ _ (c.current.span.merge c4.current.span) .absent
        simpa [Token.word_mark hk rfl, Token.word_mark hl rfl,
          Token.word_mark hr rfl] using this

theorem function_sound (hE : Sound n expr) (hk : c.current.kind = .kwFn)
    (hn : c.tokens.length ≤ n + 1) :
    Outcome c (Outcome.Whole fun e ws => ∀ l, Expr.Spelled true l e ws) (function expr n c) := by
  have hc := Token.not_isEof_of_kind hk nofun
  have hn' := length_advance hc
  refine .current (.expect hc fun hl => ?_)
  have h1 := Token.not_isEof_of_kind hl nofun
  have hn1 := length_advance h1
  refine .bind (params_sound n h1) fun ps ts c2 hp2 ⟨h2, ws, hs, hw⟩ => ?_
  have hn2 := hp2.length_tokens_le
  have hn2' := length_advance h2
  refine .expect h2 fun hb => ?_
  refine .bind (block_sound hE hb (by omega)) fun body us c3 _ ⟨h3, hy⟩ => ?_
  refine .current (.pure ⟨h3, fun l => ?_⟩)
  have := @Expr.Spelled.fn true l ps _ _ (c.current.span.merge c3.current.span) hy
  simp only [hs] at hw
  have hw' : c.current.word :: (ts.map Token.word ++ c2.current.word ::
      (us.map Token.word ++ [c3.current.word])) = .mark .kwFn :: .mark .leftParen ::
      Ident.spellings ps ++ .mark .rightParen :: (us.map Token.word ++ [c3.current.word]) := by
    have := congrArg (· ++ (us.map Token.word ++ [c3.current.word])) hw
    simpa [Token.word_mark hk rfl, Token.word_mark hl rfl] using this
  simpa [← hw'] using this

theorem array_sound (hE : Sound n expr) (hk : c.current.kind = .leftBracket)
    (hn : c.tokens.length ≤ n + 1) :
    Outcome c (Outcome.Whole fun e ws => ∀ l, Expr.Spelled true l e ws) (array expr n c) := by
  have hc := Token.not_isEof_of_kind hk nofun
  refine .current (.bind (list_sound hE n rfl hc hn) ?_)
  rintro es ts c1 _ ⟨h1, _, ⟨vs, hs, rfl⟩, hw⟩
  refine .current (.pure ⟨h1, fun l => ?_⟩)
  have := Expr.Spelled.array (n := l) (s := c.current.span.merge c1.current.span) hs
  simpa [hw, Token.word_mark hk rfl] using this

theorem hash_sound (hE : Sound n expr) (hk : c.current.kind = .leftBrace)
    (hn : c.tokens.length ≤ n + 1) :
    Outcome c (Outcome.Whole fun e ws => ∀ l, Expr.Spelled true l e ws) (Parse.hash expr n c) := by
  have hc := Token.not_isEof_of_kind hk nofun
  refine .current (.bind (pairs_sound hE n c hc hn) fun ps ts c1 _ ⟨⟨h1, ws, hs, hw⟩, _⟩ => ?_)
  refine .expect h1 fun hb => .current (.pure ⟨Token.not_isEof_of_kind hb nofun, fun l => ?_⟩)
  have := Expr.Spelled.hash (n := l) (s := c.current.span.merge c1.advance.current.span) hs
  simpa [hw, Token.word_mark hk rfl, Token.word_mark hb rfl] using this

theorem operand_sound (hE : Sound n expr) (hn : c.tokens.length ≤ n + 1) :
    Outcome c (fun e ts c' => ¬c'.current.isEof ∧ ∀ p, LeftOperand p e
      (ts.map Token.word ++ [c'.current.word]) c'.peek.kind) (operand expr n c) := by
  have closed : ∀ {r : EStateM.Result SyntaxError Cursor Expr},
      Outcome c (Outcome.Whole fun e ws => ∀ l, Expr.Spelled true l e ws) r →
      Outcome c (fun e ts c' => ¬c'.current.isEof ∧ ∀ p, LeftOperand p e
        (ts.map Token.word ++ [c'.current.word]) c'.peek.kind) r :=
    fun h => h.mono fun e ts c' _ ⟨h', hs⟩ => ⟨h', fun p => .of_closed hs⟩
  refine .current ?_
  cases hk : c.current.kind
  case ident =>
    refine closed (.pure ⟨Token.not_isEof_of_kind hk nofun, fun l => ?_⟩)
    simpa [Token.word_ident hk] using Expr.Spelled.ident
  case integer => exact closed (integer_sound hk)
  case string =>
    refine closed (.pure ⟨Token.not_isEof_of_kind hk nofun, fun l => ?_⟩)
    simpa [Token.word_string hk] using Expr.Spelled.str
  case kwTrue =>
    refine closed (.pure ⟨Token.not_isEof_of_kind hk nofun, fun l => ?_⟩)
    simpa [Token.word_mark hk rfl] using Expr.Spelled.yes
  case kwFalse =>
    refine closed (.pure ⟨Token.not_isEof_of_kind hk nofun, fun l => ?_⟩)
    simpa [Token.word_mark hk rfl] using Expr.Spelled.no
  case bang => exact unary_sound hE rfl hk hn
  case minus => exact unary_sound hE rfl hk hn
  case leftParen => exact closed (grouped_sound hE hk hn)
  case kwIf =>
    exact closed ((cond_sound hE (n + 1) c hk hn).mono
      fun e ts c' _ ⟨h', hs⟩ => ⟨h', fun _ => .cond hs⟩)
  case kwFn => exact closed (function_sound hE hk hn)
  case leftBracket => exact closed (array_sound hE hk hn)
  case leftBrace => exact closed (hash_sound hE hk hn)
  all_goals exact .noOperand c

/-! ## Operators -/

theorem call_sound (hE : Sound n expr) {lhs : Expr} {ls : List Word}
    (hl : Expr.Spelled true (Precedence.strength .leftParen) lhs ls)
    (hk : c.current.kind = .leftParen) (hn : c.tokens.length ≤ n + 1) :
    Outcome c (Outcome.Whole fun e ws => ∀ l, Expr.Spelled true l e (ls ++ ws))
      (call expr n lhs c) := by
  have hc := Token.not_isEof_of_kind hk nofun
  refine .bind (list_sound hE n rfl hc hn) ?_
  rintro es ts c1 _ ⟨h1, _, ⟨vs, hs, rfl⟩, hw⟩
  refine .current (.pure ⟨h1, fun l => ?_⟩)
  have := Expr.Spelled.call (n := l) (s := lhs.span.merge c1.current.span) hl hs
  simpa [hw, Token.word_mark hk rfl] using this

theorem index_sound (hE : Sound n expr) {lhs : Expr} {ls : List Word}
    (hl : Expr.Spelled true (Precedence.strength .leftBracket) lhs ls)
    (hk : c.current.kind = .leftBracket) (hn : c.tokens.length ≤ n + 1) :
    Outcome c (Outcome.Whole fun e ws => ∀ l, Expr.Spelled true l e (ls ++ ws))
      (index expr lhs c) := by
  have hc := Token.not_isEof_of_kind hk nofun
  have hn' := length_advance hc
  refine .advance hc (.bind (hE _ _ (by omega)) fun key ts c1 _ ⟨⟨h1, hs⟩, _⟩ => ?_)
  refine .expect h1 fun hr => .current (.pure ⟨Token.not_isEof_of_kind hr nofun, fun l => ?_⟩)
  have := Expr.Spelled.index (n := l) (s := lhs.span.merge c1.advance.current.span) hl
    (hs.mono (Nat.zero_le _))
  simpa [Token.word_mark hk rfl, Token.word_mark hr rfl] using this

theorem binary_sound (hE : Sound n expr) {op : BinaryOp} {k : Kind} {lhs : Expr} {ls : List Word}
    {p : Precedence} (hop : BinaryOp.ofKind? k = some op) (hp : p < .ofKind k)
    (hl : Expr.Spelled true (Precedence.strength k) lhs ls) (hk : c.current.kind = k)
    (hn : c.tokens.length ≤ n + 1) :
    Outcome c (fun e ts c' => ¬c'.current.isEof ∧ LeftOperand p e
      (ls ++ ts.map Token.word ++ [c'.current.word]) c'.peek.kind)
      (binary expr op (.ofKind k) lhs c) := by
  have hm : k.isMark := by cases k <;> first | rfl | cases hop
  have hc := Token.not_isEof_of_kind hk (Kind.ne_eof_of_isMark hm)
  have hn' := length_advance hc
  refine .advance hc (.bind (hE _ _ (by omega)) fun rhs ts c1 _ ⟨⟨h1, hs⟩, hstop⟩ =>
    .pure ⟨h1, Precedence.strength k, ?_, Nat.le_of_not_lt hstop, ?_⟩)
  · exact Nat.le_trans (Nat.min_le_left _ _) hp
  · have hfloor : (Precedence.ofKind k).floor = Precedence.strength k + 1 := by
      cases k <;> first | rfl | cases hop
    have := Expr.Spelled.binary (s := lhs.span.merge rhs.span) hop (Nat.le_refl _) hl (hfloor ▸ hs)
    simpa [Token.word_mark hk hm] using this

/-- The current token is an operator behind `lhs`. -/
theorem operator_sound (hE : Sound n expr) {lhs : Expr} {ls : List Word} {p : Precedence}
    (hl : LeftOperand p lhs ls c.current.kind) (hp : p < .ofKind c.current.kind)
    (hn : c.tokens.length ≤ n + 1) :
    Outcome c (fun e ts c' => ¬c'.current.isEof ∧ LeftOperand p e
      (ls ++ ts.map Token.word ++ [c'.current.word]) c'.peek.kind) (operator expr n lhs c) := by
  obtain ⟨l, hfloor, hstrength, hs⟩ := hl
  have hs := hs.mono hstrength
  have closed : ∀ {r : EStateM.Result SyntaxError Cursor Expr},
      Outcome c (Outcome.Whole fun e ws => ∀ l, Expr.Spelled true l e (ls ++ ws)) r →
      Outcome c (fun e ts c' => ¬c'.current.isEof ∧ LeftOperand p e
        (ls ++ ts.map Token.word ++ [c'.current.word]) c'.peek.kind) r :=
    fun h => h.mono fun e ts c' _ ⟨h', hs⟩ => ⟨h', .of_closed (by simpa using hs)⟩
  refine .current ?_
  generalize hk : c.current.kind = k at hs hp
  cases k
  case leftParen => exact closed (call_sound hE hs hk hn)
  case leftBracket => exact closed (index_sound hE hs hk hn)
  all_goals first
    | exact binary_sound hE rfl hp hs hk hn
    | exact absurd hp (Nat.not_lt_zero _)

/-- The operators behind `lhs`, whose last word is that of the current token. -/
theorem operators_sound (hE : Sound n expr) (p : Precedence) (m : Nat) :
    ∀ (c : Cursor) (lhs : Expr) (ls : List Word), ¬c.current.isEof → c.tokens.length ≤ m + 1 →
      c.tokens.length ≤ n + 1 → LeftOperand p lhs (ls ++ [c.current.word]) c.peek.kind →
      Outcome c (fun e ts c' => (¬c'.current.isEof ∧ Expr.Spelled true p.floor e
        (ls ++ ts.map Token.word ++ [c'.current.word])) ∧ ¬p < .ofKind c'.peek.kind)
        (operators expr n p m lhs c) := by
  induction m with
  | zero =>
      intro c lhs ls hc hm _ hl
      obtain ⟨l, hfloor, _, hs⟩ := hl
      refine .pure ⟨⟨hc, by simpa using hs.mono hfloor⟩, ?_⟩
      rw [peek_of_length_le hc hm]
      exact Nat.not_lt_zero _
  | succ m ih =>
      intro c lhs ls hc hm hn hl
      have hlen := length_advance hc
      refine .peekKind ?_
      split
      · rename_i hp
        refine .advance hc (.bind (operator_sound hE hl hp (by omega))
          fun e ts c1 hp1 ⟨h1, hl1⟩ => ?_)
        have hn1 := hp1.length_tokens_le
        refine (ih c1 e _ h1 (by omega) (by omega) hl1).mono fun e' us c2 _ h => ?_
        simpa using h
      · rename_i hp
        obtain ⟨l, hfloor, _, hs⟩ := hl
        exact .pure ⟨⟨hc, by simpa using hs.mono hfloor⟩, hp⟩

/-! ## Expressions and statements -/

theorem expressionWithin_sound (n : Nat) : Sound n (expressionWithin n) := by
  induction n with
  | zero => exact fun p c _ => .noOperand c
  | succ n ih =>
      intro p c hn
      refine .bind (operand_sound ih hn) fun lhs ts c1 hp1 ⟨h1, hl⟩ => ?_
      have hn1 := hp1.length_tokens_le
      refine (operators_sound ih p n c1 lhs _ h1 (by omega) (by omega) (hl p)).mono
        fun e us c2 _ ⟨⟨h2, hs⟩, hstop⟩ => ⟨⟨h2, ?_⟩, hstop⟩
      simpa using hs

/-- A statement leaves the place at its last token, and spells what it amounts to. -/
theorem statement_sound (c : Cursor) :
    Outcome c (Outcome.Whole (Stmt.SpelledFull true)) (statement c) :=
  stmt_sound (expressionWithin_sound c.left) c.length_tokens_le_left

end Monkey.Parse
