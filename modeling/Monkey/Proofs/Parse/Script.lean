import Monkey.Proofs.Parse.Unambiguous

/-!
# What constructs are made of

Behind its first token every construct is read in the same few ways: a fixed token or an optional
one, a whole expression behind the next token, a block behind a brace, a conditional behind
`else if`. What holds of these, and of one after the other, holds of all constructs.
-/

namespace Monkey

/-- A token that neither opens nor closes a brace, begins no statement of its own and ends no
source. -/
def Kind.isPlain : Kind → Bool
  | .leftBrace | .rightBrace | .kwLet | .kwReturn | .eof => false
  | _ => true

namespace Parse

variable {expr : Precedence → Parse Expr} {n m : Nat} {P : Part → Prop} {ahead : Bool}

/-- The parser goes on from the last token it has read, in these ways only; `V` holds of its value
if `P` holds of the trees read on the way. Where it is known that the construct goes on (`ahead`),
it may also look at the next token. -/
inductive Script (expr : Precedence → Parse Expr) (n m : Nat) (P : Part → Prop) (ahead : Bool) :
    {α : Type} → (α → Prop) → Parse α → Prop
  | pure {α : Type} {V : α → Prop} {a : α} : V a → Script expr n m P ahead V (pure a)
  | fail {α : Type} {V : α → Prop} {x : Parse α} : (∀ c, ∃ e, x c = .error e c) →
      Script expr n m P ahead V x
  | current {α : Type} {V : α → Prop} {f : Token → Parse α} :
      (∀ t, Script expr n m P ahead V (f t)) → Script expr n m P ahead V (current >>= f)
  | look {α : Type} {V : α → Prop} {f : Kind → Parse α} : ahead →
      (∀ k, Script expr n m P ahead V (f k)) → Script expr n m P ahead V (peekKind >>= f)
  | expect {α : Type} {V : α → Prop} {k : Kind} {f : Unit → Parse α} : k.isPlain →
      Script expr n m P ahead V (f ()) → Script expr n m P ahead V (expect k >>= f)
  | accept {α : Type} {V : α → Prop} {k : Kind} {f : Bool → Parse α} : k.isPlain →
      (∀ b, Script expr n m P ahead V (f b)) → Script expr n m P ahead V (accept k >>= f)
  | operand {α : Type} {V : α → Prop} (p : Precedence) {f : Expr → Parse α} :
      (∀ e, P (.expr e) → Script expr n m P ahead V (f e)) →
      Script expr n m P ahead V (do advance; let e ← expr p; f e)
  | noOperand {α : Type} {V : α → Prop} : Script expr n m P ahead V (do advance; noOperand)
  | block {α : Type} {V : α → Prop} {f : Block → Parse α} :
      (∀ b, (∀ s ∈ b.stmts, P (.stmt s)) → Script expr n m P ahead V (f b)) →
      Script expr n m P ahead V (do expect .leftBrace; let b ← block expr n; f b)
  | elseIf {α : Type} {V : α → Prop} {f : Expr → Parse α} {x : Parse α} :
      (∀ e, P (.stmt (.expr e e.span)) → Script expr n m P ahead V (f e)) →
      Script expr n m P ahead V x → Script expr n m P ahead V (do
        if ← accept .kwIf then
          let e ← cond expr n m
          f e
        else
          x)
  | bind {α β : Type} {U : β → Prop} {V : α → Prop} {x : Parse β} {f : β → Parse α} :
      Script expr n m P ahead U x → (∀ b, U b → Script expr n m P ahead V (f b)) →
      Script expr n m P ahead V (x >>= f)

namespace Script

theorem currentIdent {α : Type} {V : α → Prop} {f : Ident → Parse α}
    (h : ∀ p, Script expr n m P ahead V (f p)) :
    Script expr n m P ahead V (Parse.currentIdent >>= f) :=
  .bind (U := fun _ => True) (.current fun _ => .pure trivial) fun p _ => h p

theorem mono {α : Type} {U V : α → Prop} {x : Parse α} (h : Script expr n m P ahead U x)
    (hUV : ∀ a, U a → V a) : Script expr n m P ahead V x := by
  rw [← bind_pure x]
  exact .bind h fun a ha => .pure (hUV a ha)

end Script

/-! ## Lists -/

theorem listTail_script (k : Nat) :
    Script expr n m P ahead (fun es => ∀ e ∈ es, P (.expr e)) (listTail expr k) := by
  induction k with
  | zero => exact .pure nofun
  | succ k ih =>
      refine .accept rfl fun b => ?_
      cases b with
      | false => exact .pure nofun
      | true =>
          exact .operand _ fun e he => .bind ih fun es hes =>
            .pure (List.forall_mem_cons.mpr ⟨he, hes⟩)

theorem list_script {close : Kind} (hclose : close.isPlain) :
    Script expr n m P ahead (fun es => ∀ e ∈ es, P (.expr e)) (list expr n close) := by
  refine .accept hclose fun b => ?_
  cases b with
  | true => exact .pure nofun
  | false =>
      exact .operand _ fun e he => .bind (listTail_script n) fun es hes =>
        .expect hclose (.pure (List.forall_mem_cons.mpr ⟨he, hes⟩))

theorem paramsTail_script (k : Nat) :
    Script expr n m P ahead (fun _ => True) (paramsTail k) := by
  induction k with
  | zero => exact .pure trivial
  | succ k ih =>
      refine .accept rfl fun b => ?_
      cases b with
      | false => exact .pure trivial
      | true => exact .expect rfl (.currentIdent fun _ => .bind ih fun _ _ => .pure trivial)

theorem params_script : Script expr n m P ahead (fun _ => True) (params n) := by
  refine .accept rfl fun b => ?_
  cases b with
  | true => exact .pure trivial
  | false =>
      exact .expect rfl (.currentIdent fun _ => .bind (paramsTail_script n) fun _ _ =>
        .expect rfl (.pure trivial))

/-- Whether another pair follows is seen from the next token only. -/
theorem pairs_script (k : Nat) :
    Script expr n m P true (fun ps => ∀ q ∈ ps, P (.expr q.1) ∧ P (.expr q.2)) (pairs expr k) := by
  induction k with
  | zero => exact .noOperand
  | succ k ih =>
      refine .look rfl fun next => ?_
      split
      · exact .pure nofun
      refine .operand _ fun key hkey => .expect rfl (.operand _ fun value hvalue =>
        .look rfl fun next => ?_)
      have hrest : Script expr n m P true (fun ps => ∀ q ∈ ps, P (.expr q.1) ∧ P (.expr q.2))
          (do return (key, value) :: (← pairs expr k)) :=
        .bind ih fun ps hps => .pure (List.forall_mem_cons.mpr ⟨⟨hkey, hvalue⟩, hps⟩)
      split
      · exact .expect rfl hrest
      · exact hrest

/-! ## Statements -/

theorem letStmt_script :
    Script expr n m P ahead (fun s => ∀ q, Part.Child q (.stmt s) → P q) (letStmt expr) := by
  refine .current fun t => .expect rfl (.currentIdent fun x => .expect rfl (.operand _ fun e he =>
    .accept rfl fun b => .current fun u => .pure ?_))
  rintro _ ⟨⟩
  exact he

theorem returnStmt_script :
    Script expr n m P ahead (fun s => ∀ q, Part.Child q (.stmt s) → P q) (returnStmt expr) := by
  refine .current fun t => .operand _ fun e he => .accept rfl fun b => .current fun u => .pure ?_
  rintro _ ⟨⟩
  exact he

/-! ## Operands and operators -/

/-- `P` holds of the trees right below an expression. -/
def Below (P : Part → Prop) (e : Expr) : Prop :=
  ∀ q, Part.Child q (.expr e) → P q

theorem integer_script : Script expr n m P ahead (Below P) integer := by
  refine .current fun t => ?_
  split
  · exact .pure nofun
  · exact .fail fun c => ⟨_, rfl⟩

theorem unary_script (op : UnaryOp) : Script expr n m P ahead (Below P) (unary expr op) := by
  refine .current fun t => .operand _ fun e he => .pure ?_
  rintro _ ⟨⟩
  exact he

theorem grouped_script : Script expr n m P ahead (fun e => P (.expr e)) (grouped expr) :=
  .operand _ fun _ he => .expect rfl (.pure he)

theorem cond_script : Script expr n m P ahead (Below P) (cond expr n (m + 1)) := by
  refine .current fun t => .expect rfl (.operand _ fun test htest => .expect rfl
    (.block fun yes hyes => .accept rfl fun b => ?_))
  cases b with
  | false =>
      refine .current fun u => .pure ?_
      rintro _ (_ | _)
      · exact htest
      · exact hyes _ ‹_›
  | true =>
      refine .elseIf (fun nested hnested => .current fun u => .pure ?_)
        (.block fun no hno => .current fun u => .pure ?_)
      · rintro _ (_ | _)
        · exact htest
        · exact hyes _ ‹_›
        · rename_i h
          obtain rfl := List.mem_singleton.mp h
          exact hnested
      · rintro _ (_ | _)
        · exact htest
        · exact hyes _ ‹_›
        · exact hno _ ‹_›

theorem function_script : Script expr n m P ahead (Below P) (function expr n) := by
  refine .current fun t => .expect rfl (.bind params_script fun ps _ => .block fun body hbody =>
    .current fun u => .pure ?_)
  rintro _ ⟨⟩
  exact hbody _ ‹_›

theorem array_script : Script expr n m P ahead (Below P) (array expr n) := by
  refine .current fun t => .bind (list_script rfl) fun es hes => .current fun u => .pure ?_
  rintro _ ⟨⟩
  exact hes _ ‹_›

variable {lhs : Expr}

theorem call_script (hlhs : P (.expr lhs)) :
    Script expr n m P ahead (Below P) (call expr n lhs) := by
  refine .bind (list_script rfl) fun es hes => .current fun u => .pure ?_
  rintro _ (_ | _)
  · exact hlhs
  · exact hes _ ‹_›

theorem index_script (hlhs : P (.expr lhs)) :
    Script expr n m P ahead (Below P) (index expr lhs) := by
  refine .operand _ fun e he => .expect rfl (.current fun u => .pure ?_)
  rintro _ (_ | _)
  · exact hlhs
  · exact he

theorem binary_script (hlhs : P (.expr lhs)) (op : BinaryOp) (p : Precedence) :
    Script expr n m P ahead (Below P) (binary expr op p lhs) := by
  refine .operand _ fun e he => .pure ?_
  rintro _ (_ | _)
  · exact hlhs
  · exact he

/-- An operator behind its left operand. -/
theorem operator_script (hP : ∀ e, P (.expr e) → Below P e) (hlhs : P (.expr lhs)) :
    Script expr n m P ahead (Below P) (operator expr n lhs) := by
  refine .current fun t => ?_
  dsimp only
  split
  · exact call_script hlhs
  · exact index_script hlhs
  split
  · exact binary_script hlhs _ _
  · exact .pure (hP lhs hlhs)

/-- A hash literal is the one operand that begins with a brace. -/
theorem operand_script (hP : ∀ e, P (.expr e) → Below P e) {t : Token}
    (ht : t.kind ≠ .leftBrace) :
    ∃ x, Script expr n n P ahead (Below P) x ∧
      ∀ c : Cursor, c.current = t → operand expr n c = x c := by
  refine ⟨_, ?_, fun c hc => hc ▸ bind_of_ok (current_apply c)⟩
  split
  · exact .pure nofun
  · exact integer_script
  · exact .pure nofun
  · exact .pure nofun
  · exact .pure nofun
  · exact unary_script _
  · exact unary_script _
  · exact grouped_script.mono hP
  · exact cond_script
  · exact function_script
  · exact array_script
  · exact absurd ‹_› ht
  · exact .fail fun c => ⟨_, rfl⟩

end Parse

end Monkey
