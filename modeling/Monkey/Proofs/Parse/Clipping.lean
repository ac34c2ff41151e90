import Monkey.Proofs.Parse.Recursion
import Monkey.Proofs.Parse.Script

/-!
# What is read does not depend on what follows it

A parser that succeeds looks no further than one token behind the last one that it reads, and then
only to see that nothing goes on there. So it reads the same where the source ends right behind
that last token.
-/

namespace Monkey

namespace Cursor

variable {vs : List Token} {c d : Cursor}

/-- The first place is the second one in a source from which the tokens `vs` have been cut off. -/
structure Clipped (vs : List Token) (c d : Cursor) : Prop where
  live : ¬c.current.isEof
  tokens : d.tokens = c.tokens ++ vs

namespace Clipped

variable (h : Clipped vs c d)
include h

theorem not_isEof : ¬d.current.isEof := by
  intro hd
  have htokens := h.tokens
  rw [tokens_of_isEof hd, tokens_eq_cons h.live] at htokens
  cases htokens

theorem length_le : c.tokens.length ≤ d.tokens.length := by
  rw [h.tokens, List.length_append]
  exact Nat.le_add_right _ _

theorem current_eq : c.current = d.current := by
  have htokens := h.tokens
  rw [tokens_eq_cons h.live, tokens_eq_cons h.not_isEof] at htokens
  exact (List.cons.inj htokens).1.symm

theorem tokens_advance : d.advance.tokens = c.advance.tokens ++ vs := by
  have htokens := h.tokens
  rw [tokens_eq_cons h.live, tokens_eq_cons h.not_isEof] at htokens
  exact (List.cons.inj htokens).2

theorem advance (hd : vs.length < d.advance.tokens.length) : Clipped vs c.advance d.advance where
  live hc := by
    rw [h.tokens_advance, tokens_of_isEof hc] at hd
    exact Nat.lt_irrefl _ hd
  tokens := h.tokens_advance

theorem peek_eq (hd : vs.length < d.advance.tokens.length) : c.peek = d.peek :=
  (h.advance hd).current_eq

/-- The next token is the same, unless the one source ends in front of it. -/
theorem peek_cases : c.peek.kind = .eof ∨ c.peek = d.peek := by
  by_cases hc : c.advance.current.isEof
  · exact .inl (of_decide_eq_true hc)
  · exact .inr (current_eq ⟨hc, h.tokens_advance⟩)

end Clipped

end Cursor

namespace Parse

open Cursor (Clipped)

variable {α β : Type}

/-! ## Clipping -/

/-- If the parser succeeds at `d` then with a value of which `V` holds; and if more tokens than `vs`
and `extra` others are then left ahead, it does the same at any place that is `d` with `vs` cut
off. -/
def Clips (vs : List Token) (extra : Nat) (V : α → Prop) (x : Parse α) (d : Cursor) : Prop :=
  ∀ a d', x d = .ok a d' → V a ∧ ¬d'.current.isEof ∧ d'.tokens.length ≤ d.tokens.length ∧
    ∀ c, Clipped vs c d → vs.length + extra < d'.tokens.length →
      ∃ c', x c = .ok a c' ∧ Clipped vs c' d'

namespace Clips

variable {vs : List Token} {m n : Nat} {U : β → Prop} {V W : α → Prop} {x y : Parse α}
  {d : Cursor}

theorem mono (h : Clips vs m V x d) (hmn : m ≤ n) (hVW : ∀ a, V a → W a) :
    Clips vs n W x d := by
  intro a d' hr
  obtain ⟨ha, hlive, hle, hclip⟩ := h a d' hr
  exact ⟨hVW a ha, hlive, hle, fun c hc hlen => hclip c hc (by omega)⟩

theorem congr (hd : x d = y d) (hxy : ∀ c, Clipped vs c d → x c = y c) (h : Clips vs n V y d) :
    Clips vs n V x d := by
  intro a d' hr
  obtain ⟨ha, hlive, hle, hclip⟩ := h a d' (hd.symm.trans hr)
  refine ⟨ha, hlive, hle, fun c hc hlen => ?_⟩
  rw [hxy c hc]
  exact hclip c hc hlen

theorem fail (h : ∃ e d', x d = .error e d') : Clips vs n V x d := by
  intro a d' hr
  obtain ⟨e, d'', he⟩ := h
  cases he.symm.trans hr

theorem pure {a : α} (ha : V a) (hd : ¬d.current.isEof) : Clips vs n V (Pure.pure a) d := by
  rintro a d' ⟨⟩
  exact ⟨ha, hd, Nat.le_refl _, fun c hc _ => ⟨c, rfl, hc⟩⟩

theorem bind {x : Parse β} {f : β → Parse α} (hx : Clips vs n U x d)
    (hf : ∀ b d', U b → ¬d'.current.isEof → d'.tokens.length ≤ d.tokens.length →
      Clips vs n V (f b) d') : Clips vs n V (x >>= f) d := by
  intro a d' hr
  obtain ⟨b, d1, hb, hr⟩ := ok_of_bind hr
  obtain ⟨hU, hlive1, hle1, hclip1⟩ := hx b d1 hb
  obtain ⟨ha, hlive, hle, hclip⟩ := hf b d1 hU hlive1 hle1 a d' hr
  refine ⟨ha, hlive, Nat.le_trans hle hle1, fun c hc hlen => ?_⟩
  obtain ⟨c1, hb', hc1⟩ := hclip1 c hc (by omega)
  obtain ⟨c', hr', hc'⟩ := hclip c1 hc1 hlen
  exact ⟨c', (bind_of_ok hb').trans hr', hc'⟩

theorem current {f : Token → Parse α} (h : Clips vs n V (f d.current) d) :
    Clips vs n V (Parse.current >>= f) d := by
  intro a d' hr
  obtain ⟨ha, hlive, hle, hclip⟩ := h a d' hr
  refine ⟨ha, hlive, hle, fun c hc hlen => ?_⟩
  rw [bind_of_ok (current_apply c), hc.current_eq]
  exact hclip c hc hlen

theorem advance {f : Unit → Parse α} (hd : ¬d.current.isEof)
    (h : Clips vs n V (f ()) d.advance) : Clips vs n V (Parse.advance >>= f) d := by
  intro a d' hr
  obtain ⟨ha, hlive, hle, hclip⟩ := h a d' hr
  have hlen' := length_advance hd
  exact ⟨ha, hlive, by omega, fun c hc hlen => hclip c.advance (hc.advance (by omega)) hlen⟩

/-- Where another token is known to follow, it may be looked at. -/
theorem look {f : Kind → Parse α} (hd : ¬d.current.isEof)
    (h : Clips vs 1 V (f d.peek.kind) d) : Clips vs 1 V (Parse.peekKind >>= f) d := by
  intro a d' hr
  obtain ⟨ha, hlive, hle, hclip⟩ := h a d' hr
  have hlen' := length_advance hd
  refine ⟨ha, hlive, hle, fun c hc hlen => ?_⟩
  rw [bind_of_ok (peekKind_apply c), hc.peek_eq (by omega)]
  exact hclip c hc hlen

/-- To go on if the next token passes a test, which the end of the source does not. -/
theorem ahead (test : Kind → Prop) [DecidablePred test] (z : Bool → Parse α) {w : Parse α}
    (heof : ¬test .eof) (hd : ¬d.current.isEof)
    (hw : ∀ c : Cursor, w c = if test c.peek.kind then z true c.advance else z false c)
    (hyes : test d.peek.kind → Clips vs n V (z true) d.advance)
    (hno : ¬test d.peek.kind → Clips vs n V (z false) d) : Clips vs n V w d := by
  intro a d' hr
  have hlen' := length_advance hd
  rw [hw] at hr
  split at hr
  · rename_i htest
    obtain ⟨ha, hlive, hle, hclip⟩ := hyes htest a d' hr
    refine ⟨ha, hlive, by omega, fun c hc hlen => ?_⟩
    rw [hw, hc.peek_eq (by omega), if_pos htest]
    exact hclip c.advance (hc.advance (by omega)) hlen
  · rename_i htest
    obtain ⟨ha, hlive, hle, hclip⟩ := hno htest a d' hr
    refine ⟨ha, hlive, hle, fun c hc hlen => ?_⟩
    have hnot : ¬test c.peek.kind := by
      rcases hc.peek_cases with he | he <;> rw [he] <;> assumption
    rw [hw, if_neg hnot]
    exact hclip c hc hlen

theorem expect {k : Kind} {f : Unit → Parse α} (hk : k ≠ .eof) (hd : ¬d.current.isEof)
    (h : d.peek.kind = k → Clips vs n V (f ()) d.advance) :
    Clips vs n V (Parse.expect k >>= f) d := by
  refine ahead (· = k) (fun b => if b then f () else Parse.expect k >>= f) hk.symm hd
    (fun c => ?_) h fun hp => .fail ⟨_, _, bind_of_error (expect_of_ne hp)⟩
  split
  · exact bind_of_ok (expect_of_eq ‹_›)
  · rfl

theorem accept {k : Kind} {f : Bool → Parse α} (hk : k ≠ .eof) (hd : ¬d.current.isEof)
    (hyes : d.peek.kind = k → Clips vs n V (f true) d.advance)
    (hno : d.peek.kind ≠ k → Clips vs n V (f false) d) :
    Clips vs n V (Parse.accept k >>= f) d := by
  refine ahead (· = k) f hk.symm hd (fun c => ?_) hyes hno
  split
  · exact bind_of_ok (accept_of_eq ‹_›)
  · exact bind_of_ok (accept_of_ne ‹_›)

/-- A parser that looks ahead, and then takes the token that it has seen. -/
theorem bindExpect {x : Parse β} {f : β → Parse α} {k : Kind} (hx : Clips vs 1 U x d)
    (hk : k ≠ .eof) (hf : ∀ b d', U b → ¬d'.current.isEof → Clips vs n V (f b) d') :
    Clips vs n V (do let b ← x; Parse.expect k; f b) d := by
  intro a d' hr
  obtain ⟨b, d1, hb, hr⟩ := ok_of_bind hr
  obtain ⟨hU, hlive1, hle1, hclip1⟩ := hx b d1 hb
  by_cases hp : d1.peek.kind = k
  · rw [bind_of_ok (expect_of_eq hp)] at hr
    obtain ⟨ha, hlive, hle, hclip⟩ :=
      hf b d1.advance hU (Token.not_isEof_of_kind hp hk) a d' hr
    have hlen1 := length_advance hlive1
    refine ⟨ha, hlive, by omega, fun c hc hlen => ?_⟩
    obtain ⟨c1, hb', hc1⟩ := hclip1 c hc (by omega)
    obtain ⟨c', hr', hc'⟩ := hclip c1.advance (hc1.advance (by omega)) hlen
    have hp' : c1.peek.kind = k := by rw [hc1.peek_eq (by omega), hp]
    exact ⟨c', (bind_of_ok hb').trans ((bind_of_ok (expect_of_eq hp')).trans hr'), hc'⟩
  · cases (bind_of_error (expect_of_ne hp)).symm.trans hr

end Clips

/-! ## Constructs -/

variable {vs : List Token} {expr : Precedence → Parse Expr} {k m n : Nat} {d : Cursor}

/-- Expressions among at most `k` tokens are read whatever follows them. -/
def ClipsWithin (vs : List Token) (k : Nat) (expr : Precedence → Parse Expr) : Prop :=
  ∀ p d, d.tokens.length ≤ k → Clips vs 0 (fun _ => True) (expr p) d

variable (hE : ClipsWithin vs k expr)
include hE

/-- So are scripts, if blocks and conditionals are. -/
theorem Script.clips {ahead : Bool} {α : Type} {V : α → Prop} {x : Parse α}
    (hblock : ∀ d : Cursor, d.current.kind = .leftBrace → d.tokens.length ≤ k + 1 →
      Clips vs 0 (fun _ => True) (Parse.block expr n) d)
    (hcond : ∀ d : Cursor, d.current.kind = .kwIf → d.tokens.length ≤ k + 1 →
      Clips vs 0 (fun _ => True) (Parse.cond expr n m) d)
    (h : Script expr n m (fun _ => True) ahead V x) :
    ∀ d : Cursor, ¬d.current.isEof → d.tokens.length ≤ k + 1 → Clips vs ahead.toNat V x d := by
  have hne {l : Kind} (hl : l.isPlain) : l ≠ .eof := by
    rintro rfl
    cases hl
  induction h with
  | pure ha => exact fun d hd _ => .pure ha hd
  | fail hx => exact fun d _ _ => .fail ⟨_, _, (hx d).choose_spec⟩
  | current _ ih => exact fun d hd hk => .current (ih d.current d hd hk)
  | look hahead _ ih =>
      subst hahead
      exact fun d hd hk => .look hd (ih d.peek.kind d hd hk)
  | expect hl _ ih =>
      intro d hd hk
      have hlen := length_advance hd
      exact .expect (hne hl) hd fun hp =>
        ih d.advance (Token.not_isEof_of_kind hp (hne hl)) (by omega)
  | accept hl _ ih =>
      intro d hd hk
      have hlen := length_advance hd
      exact .accept (hne hl) hd
        (fun hp => ih true d.advance (Token.not_isEof_of_kind hp (hne hl)) (by omega))
        (fun _ => ih false d hd hk)
  | operand p _ ih =>
      intro d hd hk
      have hlen := length_advance hd
      exact .advance hd (.bind ((hE p d.advance (by omega)).mono (Nat.zero_le _) fun _ => id)
        fun e d1 _ h1 hle => ih e trivial d1 h1 (by omega))
  | noOperand => exact fun d _ _ => .fail ⟨_, _, rfl⟩
  | block _ ih =>
      intro d hd hk
      have hlen := length_advance hd
      refine .expect nofun hd fun hp => ?_
      exact .bind ((hblock d.advance hp (by omega)).mono (Nat.zero_le _) fun _ => id)
        fun b d1 _ h1 hle => ih b (fun _ _ => trivial) d1 h1 (by omega)
  | elseIf _ _ ih ihx =>
      intro d hd hk
      have hlen := length_advance hd
      refine .accept nofun hd (fun hp => ?_) (fun _ => ihx d hd hk)
      exact .bind ((hcond d.advance hp (by omega)).mono (Nat.zero_le _) fun _ => id)
        fun e d1 _ h1 hle => ih e trivial d1 h1 (by omega)
  | bind _ _ ih ihf =>
      exact fun d hd hk => .bind (ih d hd hk) fun b d1 hb h1 hle => ihf b hb d1 h1 (by omega)

theorem stmt_clips (hd : ¬d.current.isEof) (hk : d.tokens.length ≤ k) :
    Clips vs 0 (fun _ => True) (stmt expr) d := by
  have hscript {V : Stmt → Prop} {x : Parse Stmt} {d : Cursor} (hd : ¬d.current.isEof)
      (hk : d.tokens.length ≤ k) (h : Script expr 0 0 (fun _ => True) false V x) :
      Clips vs 0 (fun _ => True) x d := by
    refine (h.clips hE ?_ ?_ d hd (by omega)).mono (Nat.le_refl _) fun _ _ => trivial
    · exact fun d _ _ => .current (.fail ⟨_, _, rfl⟩)
    · exact fun d _ _ => .fail ⟨_, _, rfl⟩
  refine .current ?_
  split
  · exact hscript hd hk letStmt_script
  · exact hscript hd hk returnStmt_script
  · refine .bind (hE _ d hk) fun e d1 _ h1 hle => ?_
    exact hscript (V := fun _ => True) h1 (by omega) (.accept rfl fun _ => .pure trivial)

theorem stmts_clips (l : Nat) : ∀ d : Cursor, d.tokens.length ≤ k →
    Clips vs 0 (fun _ => True) (stmts expr l) d := by
  induction l with
  | zero => exact fun d _ => .fail ⟨_, _, rfl⟩
  | succ l ih =>
      intro d hk
      refine .current ?_
      split
      · rename_i hb
        exact .pure trivial (Token.not_isEof_of_kind hb nofun)
      · exact .fail ⟨_, _, rfl⟩
      · rename_i he
        have hd : ¬d.current.isEof := by simpa [Token.isEof] using he
        refine .bind (stmt_clips hE hd hk) fun s d1 _ h1 hle => .advance h1 ?_
        have hlen := length_advance h1
        exact .bind (ih d1.advance (by omega)) fun ss d2 _ h2 _ => .pure trivial h2

theorem block_clips (hb : d.current.kind = .leftBrace) (hk : d.tokens.length ≤ k + 1) :
    Clips vs 0 (fun _ => True) (block expr n) d := by
  have hd := Token.not_isEof_of_kind hb nofun
  have hlen := length_advance hd
  exact .current (.advance hd (.bind (stmts_clips hE n d.advance (by omega)) fun ss d1 _ h1 _ =>
    .current (.pure trivial h1)))

theorem cond_clips (m : Nat) : ∀ d : Cursor, d.current.kind = .kwIf → d.tokens.length ≤ k + 1 →
    Clips vs 0 (fun _ => True) (cond expr n m) d := by
  induction m with
  | zero => exact fun d _ _ => .fail ⟨_, _, rfl⟩
  | succ m ih =>
      intro d hi hk
      have hs : Script expr n m (fun _ => True) false _ (cond expr n (m + 1)) := cond_script
      exact (hs.clips hE (fun _ => block_clips hE) ih d (Token.not_isEof_of_kind hi nofun) hk).mono
        (Nat.le_refl _) fun _ _ => trivial

theorem Script.clips_full {ahead : Bool} {α : Type} {V : α → Prop} {x : Parse α}
    (h : Script expr n n (fun _ => True) ahead V x) (hd : ¬d.current.isEof)
    (hk : d.tokens.length ≤ k + 1) : Clips vs ahead.toNat V x d :=
  h.clips hE (fun _ => block_clips hE) (cond_clips hE n) d hd hk

/-- Behind the last pair there is the closing brace. -/
theorem hash_clips (hd : ¬d.current.isEof) (hk : d.tokens.length ≤ k + 1) :
    Clips vs 0 (fun _ => True) (hash expr n) d := by
  have hs : Script expr n n (fun _ => True) true _ (pairs expr n) := pairs_script n
  exact .current (.bindExpect (hs.clips_full hE hd hk) nofun fun ps d1 _ h1 =>
    .current (.pure trivial h1))

theorem operand_clips (hk : d.tokens.length ≤ k + 1) :
    Clips vs 0 (fun _ => True) (operand expr n) d := by
  by_cases he : d.current.kind = .eof
  · exact .fail ⟨_, _, operand_of_eof he⟩
  have hd : ¬d.current.isEof := by simpa [Token.isEof] using he
  by_cases hb : d.current.kind = .leftBrace
  · refine .current ?_
    rw [hb]
    exact hash_clips hE hd hk
  · obtain ⟨x, (hs : Script expr n n (fun _ => True) false _ x), hrun⟩ :=
      operand_script (fun _ _ _ _ => trivial) hb
    exact .congr (hrun d rfl) (fun c hc => hrun c hc.current_eq)
      ((hs.clips_full hE hd hk).mono (Nat.le_refl _) fun _ _ => trivial)

theorem operator_clips {lhs : Expr} (hd : ¬d.current.isEof) (hk : d.tokens.length ≤ k + 1) :
    Clips vs 0 (fun _ => True) (operator expr n lhs) d := by
  have hs : Script expr n n (fun _ => True) false _ (operator expr n lhs) :=
    operator_script (fun _ _ _ _ => trivial) trivial
  exact (hs.clips_full hE hd hk).mono (Nat.le_refl _) fun _ _ => trivial

theorem operators_clips (p : Precedence) (l : Nat) : ∀ (d : Cursor) (lhs : Expr),
    ¬d.current.isEof → d.tokens.length ≤ k + 1 →
    Clips vs 0 (fun _ => True) (operators expr n p l lhs) d := by
  induction l with
  | zero => exact fun d lhs hd _ => .pure trivial hd
  | succ l ih =>
      intro d lhs hd hk
      have hlen := length_advance hd
      refine .ahead (p < .ofKind ·) (fun b => if b then
        (do let e ← operator expr n lhs; operators expr n p l e) else Pure.pure lhs)
        (Nat.not_lt_zero _) hd (fun c => ?_) (fun hp => ?_) fun _ => .pure trivial hd
      · rw [operators, bind_of_ok (peekKind_apply c)]
        split <;> rfl
      · have h1 : ¬d.advance.current.isEof := (live_of_lt (c := d.advance) hp).not_isEof
        exact .bind (operator_clips hE h1 (by omega)) fun e d1 _ h1 hle => ih d1 e h1 (by omega)

omit hE

theorem expression_clips (k : Nat) : ClipsWithin vs k expression := by
  induction k with
  | zero =>
      intro p d hk
      exact .fail ⟨_, _, expressionWithin_of_eof d.left p (current_of_length_le hk)⟩
  | succ k ih =>
      intro p d hk
      refine .congr (expression_recursive p d _ (Nat.le_refl _))
        (fun c hc => expression_recursive p c _ hc.length_le) ?_
      exact .bind (operand_clips ih hk) fun lhs d1 _ h1 hle =>
        operators_clips ih p _ d1 lhs h1 (by omega)

end Parse

end Monkey
