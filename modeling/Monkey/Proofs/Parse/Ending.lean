import Monkey.Proofs.Parse.Lockstep
import Monkey.Proofs.Parse.Script

/-!
# How a construct ends

On its way through a construct the parser steps onto a `let` or a `return` only inside a brace of
that construct, where a block of statements is read, or where it wants an operand and fails. Braces
that it opens it closes, unless it fails. This is followed together with what holds of the trees
that are read on the way.
-/

namespace Monkey

namespace Cursor

variable {b b' : Nat} {c c' c'' : Cursor}

/-- If a `let` or a `return` stands here, then inside more than `b` braces. -/
def Sheltered (b : Nat) (c : Cursor) : Prop :=
  c.current.kind = .kwLet ∨ c.current.kind = .kwReturn → b < c.nesting

theorem sheltered_of_kind {k : Kind} (h : c.current.kind = k) (hk : k ≠ .kwLet ∧ k ≠ .kwReturn) :
    c.Sheltered b := by
  rintro (hc | hc)
  · exact absurd (h.symm.trans hc) hk.1
  · exact absurd (h.symm.trans hc) hk.2

/-- From one place to another, by steps onto sheltered places. -/
inductive Trail (b : Nat) : Cursor → Cursor → Prop
  | refl (c : Cursor) : Trail b c c
  | step {c c' : Cursor} : ¬c.current.isEof → c.advance.Sheltered b → Trail b c.advance c' →
      Trail b c c'

namespace Trail

theorem trans (h : Trail b c c') (h' : Trail b c' c'') : Trail b c c'' := by
  induction h with
  | refl => exact h'
  | step hc hs _ ih => exact .step hc hs (ih h')

theorem mono (hb : b ≤ b') (h : Trail b' c c') : Trail b c c' := by
  induction h with
  | refl => exact .refl _
  | step hc hs _ ih => exact .step hc (fun hk => Nat.lt_of_le_of_lt hb (hs hk)) ih

theorem passes (h : Trail b c c') : ∃ ts, Passes c ts c' := by
  induction h with
  | refl => exact ⟨[], .refl _⟩
  | step hc _ _ ih => exact ⟨_, .step hc ih.choose_spec⟩

theorem length_tokens_le (h : Trail b c c') : c'.tokens.length ≤ c.tokens.length :=
  h.passes.choose_spec.length_tokens_le

theorem one {k : Kind} (hc : ¬c.current.isEof) (hk : c.peek.kind = k)
    (hs : k ≠ .kwLet ∧ k ≠ .kwReturn) : Trail b c c.advance :=
  .step hc (sheltered_of_kind hk hs) (.refl _)

end Trail

end Cursor

namespace Parse

open Cursor (Trail Sheltered nestingAfter)

/-- The last token that has been read is not the end, `b` braces are open behind it, and `G` holds
of the place behind it. -/
structure Behind (G : Cursor → Prop) (b : Nat) (c : Cursor) : Prop where
  live : ¬c.current.isEof
  nesting : c.advance.nesting = b
  onward : G c.advance

/-- How a parser ends that began at `c`, inside `b` braces: with a value of which `V` holds, all
braces closed that it opened, and behind sheltered places only; or with an error, which may also be
that no operand begins at the place reached. -/
def Ended {α : Type} (G : Cursor → Prop) (V : α → Prop) (b : Nat) (c : Cursor) :
    EStateM.Result SyntaxError Cursor α → Prop
  | .ok a c' => V a ∧ Trail b c c' ∧ Behind G b c'
  | .error e c' => Trail b c c' ∨ ∃ d, Trail b c d ∧ ¬d.current.isEof ∧ c' = d.advance ∧
      e = ⟨.noOperand c'.current.kind, c'.current.span⟩

namespace Ended

variable {α β : Type} {G : Cursor → Prop} {b b' : Nat} {c c' : Cursor} {U : β → Prop}
  {V W : α → Prop} {r : EStateM.Result SyntaxError Cursor α}

theorem imp_ok (h : Ended G V b c r) (hVW : ∀ a c', r = .ok a c' → V a → W a) :
    Ended G W b c r := by
  cases r with
  | ok a d => exact ⟨hVW a d rfl h.1, h.2⟩
  | error e d => exact h

theorem weaken {G' : Cursor → Prop} (hG : ∀ c, G c → G' c) (h : Ended G V b c r) :
    Ended G' V b c r := by
  cases r with
  | ok a d => exact ⟨h.1, h.2.1, h.2.2.live, h.2.2.nesting, hG _ h.2.2.onward⟩
  | error e d => exact h

theorem prepend (ht : Trail b c c') (h : Ended G V b c' r) : Ended G V b c r := by
  cases r with
  | ok a d => exact ⟨h.1, ht.trans h.2.1, h.2.2⟩
  | error e d => exact h.imp ht.trans fun ⟨x, hx, hrest⟩ => ⟨x, ht.trans hx, hrest⟩

/-- The first step of a parser may be inside more braces than the parser as a whole. -/
theorem within {x : Parse β} {f : β → Parse α} (hbb : b ≤ b') (hx : Ended G U b' c (x c))
    (hf : ∀ a c', x c = .ok a c' → U a → Behind G b' c' → Ended G V b c' (f a c')) :
    Ended G V b c ((x >>= f) c) := by
  cases hr : x c with
  | ok a c' =>
      rw [hr] at hx
      obtain ⟨ha, ht, hc'⟩ := hx
      rw [bind_of_ok hr]
      exact prepend (ht.mono hbb) (hf a c' hr ha hc')
  | error e c' =>
      rw [hr] at hx
      rw [bind_of_error hr]
      exact hx.imp (Trail.mono hbb) fun ⟨d, hd, hrest⟩ => ⟨d, hd.mono hbb, hrest⟩

theorem bind {x : Parse β} {f : β → Parse α} (hx : Ended G U b c (x c))
    (hf : ∀ a c', U a → Behind G b c' → Ended G V b c' (f a c')) :
    Ended G V b c ((x >>= f) c) :=
  within (Nat.le_refl b) hx fun a c' _ => hf a c'

theorem pure {a : α} (ha : V a) (hc : Behind G b c) : Ended G V b c ((Pure.pure a : Parse α) c) :=
  ⟨ha, .refl c, hc⟩

theorem noOperand (c : Cursor) : Ended G V b c ((Parse.noOperand : Parse α) c) :=
  .inl (.refl c)

theorem length_ok {a : α} (h : Ended G V b c (.ok a c')) : c'.tokens.length ≤ c.tokens.length :=
  h.2.1.length_tokens_le

theorem length_error {e : SyntaxError} (h : Ended G V b c (.error e c')) :
    c'.tokens.length ≤ c.tokens.length := by
  rcases h with ht | ⟨d, ht, hd, rfl, -⟩
  · exact ht.length_tokens_le
  · have hlen := ht.length_tokens_le
    have hlen' := length_advance hd
    omega

end Ended

/-! ## Scripts -/

variable {expr : Precedence → Parse Expr} {G : Cursor → Prop} {P : Part → Prop} {n m : Nat}
  {c : Cursor}

/-- The parser of expressions ends as said where `G` holds, with trees of which `P` holds, and
begins no expression with `let` or `return`. -/
structure Ends (G : Cursor → Prop) (P : Part → Prop) (expr : Precedence → Parse Expr) : Prop where
  ended (p : Precedence) {c : Cursor} : G c →
    Ended G (fun e => P (.expr e)) c.nesting c (expr p c)
  declines (p : Precedence) {c : Cursor} : c.current.kind = .kwLet ∨ c.current.kind = .kwReturn →
    expr p c = noOperand c
  onward {c : Cursor} : G c → ¬c.current.isEof → G c.advance
  stmt {s : Stmt} : (∀ q, Part.Child q (.stmt s) → P q) → P (.stmt s)
  below {e : Expr} : P (.expr e) → Below P e

theorem nestingAfter_of_isPlain {k : Kind} (hk : k.isPlain) (b : Nat) : nestingAfter b k = b := by
  cases k <;> first | rfl | cases hk

theorem nesting_advance_of_kind {k : Kind} (h : c.current.kind = k)
    (hk : k ∉ [.leftBrace, .rightBrace]) : c.advance.nesting = c.nesting := by
  change nestingAfter c.nesting c.current.kind = c.nesting
  rw [h]
  cases k <;> first | rfl | simp at hk

theorem nesting_advance_of_leftBrace (hk : c.current.kind = .leftBrace) :
    c.advance.nesting = c.nesting + 1 := by
  change nestingAfter c.nesting c.current.kind = _
  rw [hk]
  rfl

variable (hE : Ends G P expr)
include hE

/-- Onto a plain token. -/
theorem Ends.plain {k : Kind} {b : Nat} (hk : k.isPlain) (hc : Behind G b c)
    (h : c.peek.kind = k) : Trail b c c.advance ∧ Behind G b c.advance := by
  have hne : k ≠ .kwLet ∧ k ≠ .kwReturn ∧ k ≠ .eof := by
    refine ⟨?_, ?_, ?_⟩ <;> (rintro rfl; cases hk)
  have hlive : ¬c.advance.current.isEof := Token.not_isEof_of_kind h hne.2.2
  refine ⟨.one hc.live h ⟨hne.1, hne.2.1⟩, hlive, ?_, hE.onward hc.onward hlive⟩
  change nestingAfter c.advance.nesting c.peek.kind = b
  rw [h, nestingAfter_of_isPlain hk, hc.nesting]

theorem Ends.operand (p : Precedence) {b : Nat} (hc : Behind G b c) :
    Ended G (fun e => P (.expr e)) b c ((do advance; expr p : Parse Expr) c) := by
  obtain ⟨hlive, rfl, hG⟩ := hc
  change Ended G _ _ c (expr p c.advance)
  by_cases hk : c.advance.current.kind = .kwLet ∨ c.advance.current.kind = .kwReturn
  · rw [hE.declines p hk]
    exact .inr ⟨c, .refl c, hlive, rfl, rfl⟩
  · exact .prepend (.step hlive (absurd · hk) (.refl _)) (hE.ended p hG)

/-- What is read from behind the last token ends so, if blocks and conditionals do. -/
theorem Script.ended {ahead : Bool} {α : Type} {V : α → Prop} {x : Parse α} {b : Nat}
    (hblock : ∀ c : Cursor, c.current.kind = .leftBrace → G c.advance →
      Ended G (fun b => ∀ s ∈ b.stmts, P (.stmt s)) c.nesting c (Parse.block expr n c))
    (hcond : ∀ c : Cursor, c.current.kind = .kwIf → G c →
      Ended G (fun e => P (.expr e)) c.nesting c (Parse.cond expr n m c))
    (h : Script expr n m P ahead V x) : ∀ c : Cursor, Behind G b c → Ended G V b c (x c) := by
  induction h with
  | pure ha => exact fun c hc => .pure ha hc
  | fail hx =>
      intro c _
      obtain ⟨e, he⟩ := hx c
      rw [he]
      exact .inl (.refl c)
  | current _ ih => exact fun c hc => ih c.current c hc
  | look _ _ ih => exact fun c hc => ih c.peek.kind c hc
  | @expect _ _ k f hk _ ih =>
      intro c hc
      by_cases hp : c.peek.kind = k
      · obtain ⟨ht, hc'⟩ := hE.plain hk hc hp
        rw [bind_of_ok (expect_of_eq hp)]
        exact .prepend ht (ih c.advance hc')
      · rw [bind_of_error (expect_of_ne hp)]
        exact .inl (.refl c)
  | @accept _ _ k f hk _ ih =>
      intro c hc
      by_cases hp : c.peek.kind = k
      · obtain ⟨ht, hc'⟩ := hE.plain hk hc hp
        rw [bind_of_ok (accept_of_eq hp)]
        exact .prepend ht (ih true c.advance hc')
      · rw [bind_of_ok (accept_of_ne hp)]
        exact ih false c hc
  | @operand _ _ p f _ ih =>
      intro c hc
      rw [← bind_assoc]
      exact .bind (hE.operand p hc) fun e c' he hc' => ih e he c' hc'
  | noOperand => exact fun c hc => .inr ⟨c, .refl c, hc.live, rfl, rfl⟩
  | @block _ _ f _ ih =>
      intro c hc
      by_cases hp : c.peek.kind = .leftBrace
      · have hlive : ¬c.advance.current.isEof := Token.not_isEof_of_kind hp nofun
        have hbody := hblock c.advance hp (hE.onward hc.onward hlive)
        rw [hc.nesting] at hbody
        rw [bind_of_ok (expect_of_eq hp)]
        exact .prepend (.one hc.live hp ⟨nofun, nofun⟩)
          (.bind hbody fun b c' hb hc' => ih b hb c' hc')
      · rw [bind_of_error (expect_of_ne hp)]
        exact .inl (.refl c)
  | @elseIf _ _ f x _ _ ih ihx =>
      intro c hc
      by_cases hp : c.peek.kind = .kwIf
      · have hnested := hcond c.advance hp hc.onward
        rw [hc.nesting] at hnested
        rw [bind_of_ok (accept_of_eq hp)]
        refine .prepend (.one hc.live hp ⟨nofun, nofun⟩) (.bind hnested fun e c' he hc' => ?_)
        exact ih e (hE.stmt fun q hq => by cases hq; exact he) c' hc'
      · rw [bind_of_ok (accept_of_ne hp)]
        exact ihx c hc
  | bind _ _ ih ihf => exact fun c hc => .bind (ih c hc) fun a c' ha hc' => ihf a ha c' hc'

/-- A script that reads no block: the bounds on blocks do not matter. -/
theorem Script.ended_zero {α : Type} {V : α → Prop} {x : Parse α} {b : Nat}
    (h : Script expr 0 0 P false V x) (hc : Behind G b c) : Ended G V b c (x c) := by
  refine h.ended hE (fun c hk _ => ?_) (fun c _ _ => .noOperand c) c hc
  refine .inl (.step (Token.not_isEof_of_kind hk nofun) (fun _ => ?_) (.refl _))
  exact nesting_advance_of_leftBrace hk ▸ Nat.lt_succ_self _

/-! ## Statements -/

omit hE in
theorem behind_of_kind {k : Kind} (h : c.current.kind = k)
    (hk : k ∉ [.leftBrace, .rightBrace, .eof]) (hG : G c.advance) : Behind G c.nesting c := by
  simp only [List.mem_cons, not_or] at hk
  exact ⟨Token.not_isEof_of_kind h hk.2.2.1, nesting_advance_of_kind h (by simp [hk]), hG⟩

theorem stmt_ended (hc : ¬c.current.isEof) (hG : G c) :
    Ended G (fun s => P (.stmt s)) c.nesting c (stmt expr c) := by
  have hG' := hE.onward hG hc
  by_cases hl : c.current.kind = .kwLet
  · rw [stmt_of_let hl]
    exact (letStmt_script.mono fun _ => hE.stmt).ended_zero hE (behind_of_kind hl (by decide) hG')
  by_cases hr : c.current.kind = .kwReturn
  · rw [stmt_of_return hr]
    exact (returnStmt_script.mono fun _ => hE.stmt).ended_zero hE
      (behind_of_kind hr (by decide) hG')
  · rw [stmt_of_ne hl hr]
    refine .bind (hE.ended _ hG) fun value c' hvalue hc' => ?_
    have hs : Script expr 0 0 P false (fun s => P (.stmt s))
        (do let _ ← accept .semicolon; return Stmt.expr value value.span) :=
      .accept rfl fun _ => .pure (hE.stmt fun q hq => by cases hq; exact hvalue)
    exact hs.ended_zero hE hc'

/-- Inside a brace any token may begin a statement. -/
theorem stmts_ended {b : Nat} (k : Nat) : ∀ c : Cursor, c.nesting = b + 1 → G c →
    Ended G (fun ss => ∀ s ∈ ss, P (.stmt s)) b c (stmts expr k c) := by
  induction k with
  | zero => exact fun c _ _ => .inl (.refl c)
  | succ k ih =>
      intro c hb hG
      by_cases he : c.current.kind = .eof
      · rw [stmts_of_eof he]
        exact .inl (.refl c)
      have hc : ¬c.current.isEof := by simpa [Token.isEof] using he
      by_cases hk : c.current.kind = .rightBrace
      · rw [stmts_of_rightBrace hk]
        refine .pure (List.forall_mem_nil _) ⟨hc, ?_, hE.onward hG hc⟩
        change nestingAfter c.nesting c.current.kind = b
        rw [hk, hb]
        rfl
      rw [stmts_of_ne he hk]
      refine .within (Nat.le_succ b) (hb ▸ stmt_ended hE hc hG) fun s c1 _ hs hc1 => ?_
      refine .prepend (.step hc1.live (fun _ => hc1.nesting ▸ Nat.lt_succ_self b) (.refl _)) ?_
      exact .bind (ih c1.advance hc1.nesting hc1.onward) fun ss c2 hss hc2 =>
        .pure (List.forall_mem_cons.mpr ⟨hs, hss⟩) hc2

theorem block_ended (hk : c.current.kind = .leftBrace) (hG : G c.advance) :
    Ended G (fun b => ∀ s ∈ b.stmts, P (.stmt s)) c.nesting c (block expr n c) := by
  have hb := nesting_advance_of_leftBrace hk
  change Ended G _ _ c ((do let ss ← stmts expr n; _ : Parse Block) c.advance)
  refine .prepend (.step (Token.not_isEof_of_kind hk nofun) (fun _ => hb ▸ Nat.lt_succ_self _)
    (.refl _)) ?_
  exact .bind (stmts_ended hE n _ hb hG) fun ss c1 hss hc1 => .pure hss hc1

/-! ## Operands and operators -/

omit hE in
/-- `P` holds of the conditionals behind an `else` if it holds of the trees right below them. -/
def Seeds (G : Cursor → Prop) (P : Part → Prop) (expr : Precedence → Parse Expr) (n : Nat) : Prop :=
  ∀ (k : Nat) {c c' : Cursor} {e : Expr}, k ≤ n → c.current.kind = .kwIf → G c →
    cond expr n k c = .ok e c' → Below P e → P (.expr e)

section

variable (hcond : Seeds G P expr n)
include hcond

theorem cond_ended (k : Nat) (hk : k ≤ n) (c : Cursor) (hc : c.current.kind = .kwIf)
    (hG : G c) : Ended G (fun e => P (.expr e)) c.nesting c (Parse.cond expr n k c) := by
  induction k generalizing c with
  | zero => exact .noOperand c
  | succ k ih =>
      have hlive : ¬c.current.isEof := Token.not_isEof_of_kind hc nofun
      have hs : Script expr n k P false (Below P) (Parse.cond expr n (k + 1)) := cond_script
      have hended := hs.ended hE (fun c hb hG => block_ended hE hb hG) (ih (by omega)) c
        (behind_of_kind hc (by decide) (hE.onward hG hlive))
      exact hended.imp_ok fun e c' hr he => hcond (k + 1) hk hc hG hr he

/-- A script that may read blocks and conditionals. -/
theorem Script.ended_full {ahead : Bool} {α : Type} {V : α → Prop} {x : Parse α} {b : Nat}
    (h : Script expr n n P ahead V x) (hc : Behind G b c) : Ended G V b c (x c) :=
  h.ended hE (fun _ hb hG => block_ended hE hb hG) (cond_ended hE hcond n (Nat.le_refl n)) c hc

theorem hash_ended (hk : c.current.kind = .leftBrace) (hG : G c.advance) :
    Ended G (Below P) c.nesting c (Parse.hash expr n c) := by
  have hs : Script expr n n P true _ (pairs expr n) := pairs_script n
  have hc : Behind G (c.nesting + 1) c :=
    ⟨Token.not_isEof_of_kind hk nofun, nesting_advance_of_leftBrace hk, hG⟩
  rw [Parse.hash, bind_of_ok (current_apply c)]
  refine .within (Nat.le_succ _) (hs.ended_full hE hcond hc) fun ps c1 _ hps hc1 => ?_
  by_cases hp : c1.peek.kind = .rightBrace
  · have hlive : ¬c1.advance.current.isEof := Token.not_isEof_of_kind hp nofun
    rw [bind_of_ok (expect_of_eq hp)]
    refine .prepend (.one hc1.live hp ⟨nofun, nofun⟩)
      (.pure ?_ ⟨hlive, ?_, hE.onward hc1.onward hlive⟩)
    · rintro _ (_ | _)
      · exact (hps _ ‹_›).1
      · exact (hps _ ‹_›).2
    · change nestingAfter c1.advance.nesting c1.peek.kind = _
      rw [hp, hc1.nesting]
      rfl
  · rw [bind_of_error (expect_of_ne hp)]
    exact .inl (.refl c1)

theorem operand_ended (hG : ¬c.current.isEof → G c.advance) :
    Ended G (Below P) c.nesting c (operand expr n c) := by
  by_cases he : c.current.kind = .eof
  · rw [operand_of_eof he]
    exact .noOperand c
  have hc : ¬c.current.isEof := by simpa [Token.isEof] using he
  by_cases hk : c.current.kind = .leftBrace
  · have hrun : operand expr n c = Parse.hash expr n c := by
      rw [operand, bind_of_ok (current_apply c), hk]
    exact hrun ▸ hash_ended hE hcond hk (hG hc)
  by_cases hr : c.current.kind = .rightBrace
  · have hrun : operand expr n c = Parse.noOperand c := by
      rw [operand, bind_of_ok (current_apply c), hr]
    exact hrun ▸ .noOperand c
  obtain ⟨x, (hs : Script expr n n P false (Below P) x), hrun⟩ :=
    operand_script (fun _ => hE.below) hk
  rw [hrun c rfl]
  exact hs.ended_full hE hcond (behind_of_kind rfl (by simp [hk, hr, he]) (hG hc))

theorem operator_ended {b : Nat} {lhs : Expr} (hlhs : P (.expr lhs)) (hc : Behind G b c) :
    Ended G (Below P) b c (operator expr n lhs c) := by
  have hs : Script expr n n P false (Below P) (operator expr n lhs) :=
    operator_script (fun _ => hE.below) hlhs
  exact hs.ended_full hE hcond hc

end

omit hE

theorem isPlain_of_lt {p : Precedence} {k : Kind} (h : p < .ofKind k) : k.isPlain := by
  cases k <;> first | rfl | exact absurd h (Nat.not_lt_zero _)

/-! ## Expressions and statements -/

/-- The parser ends so wherever it is called, whatever it reads. -/
abbrev Shelters (expr : Precedence → Parse Expr) : Prop :=
  Ends (fun _ => True) (fun _ => True) expr

theorem seeds : Seeds (fun _ => True) (fun _ => True) expr n :=
  fun _ _ _ _ _ _ _ _ _ => trivial

theorem operators_ended (hE : Shelters expr) (p : Precedence) {b : Nat} (k : Nat) :
    ∀ (c : Cursor) (lhs : Expr), Behind (fun _ => True) b c →
      Ended (fun _ => True) (fun _ => True) b c (operators expr n p k lhs c) := by
  induction k with
  | zero => exact fun c lhs hc => .pure trivial hc
  | succ k ih =>
      intro c lhs hc
      by_cases hp : p < .ofKind c.peek.kind
      · obtain ⟨ht, hc1⟩ := hE.plain (isPlain_of_lt hp) hc rfl
        rw [operators, bind_of_ok (peekKind_apply c), if_pos hp]
        exact .prepend ht (.bind (operator_ended hE seeds trivial hc1) fun e c2 _ hc2 =>
          ih c2 e hc2)
      · rw [operators_of_not_lt hp]
        exact .pure trivial hc

theorem operand_of_keyword (hk : c.current.kind = .kwLet ∨ c.current.kind = .kwReturn) :
    operand expr n c = noOperand c := by
  rw [operand, bind_of_ok (current_apply c)]
  rcases hk with hk | hk <;> rw [hk]

theorem expressionWithin_shelters (n : Nat) : Shelters (expressionWithin n) := by
  induction n with
  | zero =>
      exact {
        ended := fun p c _ => .noOperand c
        declines := fun p c _ => rfl
        onward := fun _ _ => trivial
        stmt := fun _ => trivial
        below := fun _ _ _ => trivial }
  | succ n ih =>
      exact {
        ended := fun p c _ => .bind (operand_ended ih seeds fun _ => trivial)
          fun lhs c1 _ hc1 => operators_ended ih p n c1 lhs hc1
        declines := fun p c hk => by
          rw [expressionWithin, bind_of_error ((operand_of_keyword hk).trans rfl)]
          rfl
        onward := fun _ _ => trivial
        stmt := fun _ => trivial
        below := fun _ _ _ => trivial }

theorem expression_shelters : Shelters expression where
  ended p c _ := (expressionWithin_shelters c.left).ended p trivial
  declines p {c} hk := (expressionWithin_shelters c.left).declines p hk
  onward _ _ := trivial
  stmt _ := trivial
  below _ _ _ := trivial

theorem statement_ended (hc : ¬c.current.isEof) :
    Ended (fun _ => True) (fun _ => True) c.nesting c (statement c) :=
  stmt_ended (expressionWithin_shelters c.left) hc trivial

/-- A statement that begins with `let` or `return` fails behind that token, unless the name is
missing that `let` wants. -/
theorem statement_error_of_keyword {e : SyntaxError} {d : Cursor}
    (hk : c.current.kind = .kwLet ∨ c.current.kind = .kwReturn) (h : statement c = .error e d) :
    (d = c ∧ e = ⟨.unexpected .ident c.peek.kind, c.peek.span⟩ ∧ c.peek.kind ≠ .ident) ∨
      d.tokens.length < c.tokens.length := by
  have hE := expressionWithin_shelters c.left
  have hc : ¬c.current.isEof := by
    rcases hk with hk | hk <;> exact Token.not_isEof_of_kind hk nofun
  have hlen := length_advance hc
  change stmt (expressionWithin c.left) c = _ at h
  rcases hk with hk | hk
  · rw [stmt_of_let hk, letStmt, bind_of_ok (current_apply c)] at h
    by_cases hp : c.peek.kind = .ident
    · have hbehind : Behind (fun _ => True) c.advance.advance.nesting c.advance :=
        ⟨Token.not_isEof_of_kind (k := .ident) hp nofun, rfl, trivial⟩
      have hs : Script (expressionWithin c.left) 0 0 (fun _ => True) false (fun _ => True) (do
          let target ← currentIdent
          expect .assign
          advance
          let value ← expressionWithin c.left .lowest
          let _ ← accept .semicolon
          return Stmt.bind target value (c.current.span.merge (← current).span)) :=
        .currentIdent fun x => .expect rfl (.operand .lowest fun e _ => .accept rfl fun b =>
          .current fun u => .pure trivial)
      have hended := hs.ended_zero hE hbehind
      rw [bind_of_ok (expect_of_eq hp)] at h
      rw [h] at hended
      have := hended.length_error
      exact .inr (by omega)
    · rw [bind_of_error (expect_of_ne hp)] at h
      cases h
      exact .inl ⟨rfl, rfl, hp⟩
  · have hs (e : Expr) : Script (expressionWithin c.left) 0 0 (fun _ => True) false
        (fun _ => True) (do
          let _ ← accept .semicolon
          return Stmt.ret e (c.current.span.merge (← current).span)) :=
      .accept rfl fun b => .current fun u => .pure trivial
    rw [stmt_of_return hk, returnStmt, bind_of_ok (current_apply c),
      bind_of_ok (advance_apply c)] at h
    have hended := Ended.bind (hE.ended .lowest (c := c.advance) trivial)
      fun e c' _ hc' => (hs e).ended_zero hE hc'
    rw [h] at hended
    have := hended.length_error
    exact .inr (by omega)

/-- A `let` or a `return` is not itself taken for an operand by the statement that it begins. -/
theorem length_statement_error {k : Kind} {sp : Span} {d : Cursor}
    (hk : c.current.kind = .kwLet ∨ c.current.kind = .kwReturn)
    (h : statement c = .error ⟨.noOperand k, sp⟩ d) : d.tokens.length < c.tokens.length :=
  (statement_error_of_keyword hk h).resolve_left fun ⟨_, he, _⟩ => by cases he

end Parse

end Monkey
