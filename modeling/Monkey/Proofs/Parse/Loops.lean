import Monkey.Proofs.Parse.Attempts
import Monkey.Proofs.Parse.Ending
import Monkey.Proofs.Parse.Recursion

/-!
# Loops

Every round of a loop of the parser uses up a token, unless it is the last one. So a loop, followed
round by round without any bound, comes to an end, and it ends as the bounded recursion does.
-/

namespace Monkey

open Cursor (Passes)

/-- A loop without a bound, from a state and a place: a round ends it, or fails, or leaves another
state at a place where fewer tokens are ahead. -/
inductive Loop {α β : Type} (round : α → Parse (α ⊕ β)) :
    α → Cursor → EStateM.Result SyntaxError Cursor β → Prop
  | done {a : α} {b : β} {c c' : Cursor} : round a c = .ok (.inr b) c' → Loop round a c (.ok b c')
  | failed {a : α} {e : SyntaxError} {c c' : Cursor} : round a c = .error e c' →
      Loop round a c (.error e c')
  | again {a a' : α} {c c' : Cursor} {r : EStateM.Result SyntaxError Cursor β} :
      round a c = .ok (.inl a') c' → c'.tokens.length < c.tokens.length → Loop round a' c' r →
      Loop round a c r

namespace Parse

variable {α : Type} {n : Nat} {c : Cursor}

/-! ## Loops that collect -/

/-- A round that adds one thing to those collected, or ends the loop if there is none. -/
def collect (item : Parse (Option α)) (xs : List α) : Parse (List α ⊕ List α) := do
  let x ← item
  return x.elim (.inr xs) fun x => .inl (xs ++ [x])

/-- From the places of a loop, a thing is collected by passing some tokens to another such place. -/
def Collects (item : Parse (Option α)) (place : Cursor → Prop) : Prop :=
  ∀ c x c', place c → item c = .ok (some x) c' → c'.tokens.length < c.tokens.length ∧ place c'

theorem loop_collect {item : Parse (Option α)} {place : Cursor → Prop} {loop : Nat → Parse (List α)}
    (hitem : Collects item place)
    (hzero : ∀ c, place c → c.tokens.length ≤ 0 → ∃ e c', item c = .error e c' ∧
      loop 0 c = .error e c')
    (hsucc : ∀ n c, loop (n + 1) c =
      (do let x ← item; x.elim (pure []) fun x => do return x :: (← loop n) : Parse (List α)) c)
    (n : Nat) : ∀ (c : Cursor) (xs : List α), place c → c.tokens.length ≤ n →
      Loop (collect item) xs c ((do return xs ++ (← loop n) : Parse (List α)) c) := by
  induction n with
  | zero =>
      intro c xs hc hn
      obtain ⟨e, c', hi, hl⟩ := hzero c hc hn
      rw [bind_of_error hl]
      exact .failed (bind_of_error hi)
  | succ n ih =>
      intro c xs hc hn
      cases hi : item c with
      | error e c' =>
          have hl : loop (n + 1) c = .error e c' := by rw [hsucc, bind_of_error hi]
          rw [bind_of_error hl]
          exact .failed (bind_of_error hi)
      | ok x c' =>
          cases x with
          | none =>
              have hl : loop (n + 1) c = .ok [] c' := by
                rw [hsucc, bind_of_ok hi]
                rfl
              rw [bind_of_ok hl, List.append_nil]
              exact .done (bind_of_ok hi)
          | some x =>
              obtain ⟨hlen, hc'⟩ := hitem c x c' hc hi
              have hl : loop (n + 1) c = (do return x :: (← loop n) : Parse (List α)) c' := by
                rw [hsucc, bind_of_ok hi]
                rfl
              have hrest := ih c' (xs ++ [x]) hc' (by omega)
              refine .again (bind_of_ok hi) hlen ?_
              cases hr : loop n c' with
              | ok ys d =>
                  rw [bind_of_ok hr, List.append_assoc] at hrest
                  rw [bind_of_ok (hl.trans (bind_of_ok hr))]
                  exact hrest
              | error e d =>
                  rw [bind_of_error hr] at hrest
                  rw [bind_of_error (hl.trans (bind_of_error hr))]
                  exact hrest

/-- What has been collected is at first nothing. -/
theorem loop_collect_nil {item : Parse (Option α)} {r : EStateM.Result SyntaxError Cursor (List α)}
    {x : Parse (List α)} (hx : x c = r)
    (h : Loop (collect item) [] c ((do return [] ++ (← x) : Parse (List α)) c)) :
    Loop (collect item) [] c r := by
  cases r with
  | ok ys d =>
      rw [bind_of_ok hx] at h
      exact h
  | error e d =>
      rw [bind_of_error hx] at h
      exact h

/-! ## The loops of lists, parameters, hashes and blocks -/

variable (expr : Precedence → Parse Expr)

def listItem : Parse (Option Expr) := do
  if ← accept .comma then
    advance
    return some (← expr .lowest)
  else
    return none

def paramItem : Parse (Option Ident) := do
  if ← accept .comma then
    expect .ident
    return some (← currentIdent)
  else
    return none

def pairItem : Parse (Option (Expr × Expr)) := do
  if (← peekKind) = .rightBrace then
    return none
  advance
  let key ← expr .lowest
  expect .colon
  advance
  let value ← expr .lowest
  if (← peekKind) ≠ .rightBrace then
    expect .comma
  return some (key, value)

def stmtItem : Parse (Option Stmt) := do
  match (← current).kind with
  | .rightBrace => return none
  | .eof => unclosed
  | _ =>
    let s ← stmt expr
    advance
    return some s

variable {expr}

theorem listTail_succ (n : Nat) (c : Cursor) : listTail expr (n + 1) c =
    (do let x ← listItem expr
        x.elim (pure []) fun x => do return x :: (← listTail expr n) : Parse (List Expr)) c := by
  by_cases hk : c.peek.kind = .comma
  · rw [listTail, bind_of_ok (accept_of_eq hk), listItem, bind_assoc, bind_of_ok (accept_of_eq hk)]
    simp only [if_true, bind_assoc, pure_bind]
    rfl
  · rw [listTail, bind_of_ok (accept_of_ne hk), listItem, bind_assoc, bind_of_ok (accept_of_ne hk)]
    rfl

theorem paramsTail_succ (n : Nat) (c : Cursor) : paramsTail (n + 1) c =
    (do let x ← paramItem
        x.elim (pure []) fun x => do return x :: (← paramsTail n) : Parse (List Ident)) c := by
  by_cases hk : c.peek.kind = .comma
  · rw [paramsTail, bind_of_ok (accept_of_eq hk), paramItem, bind_assoc,
      bind_of_ok (accept_of_eq hk)]
    simp only [if_true, bind_assoc, pure_bind]
    rfl
  · rw [paramsTail, bind_of_ok (accept_of_ne hk), paramItem, bind_assoc,
      bind_of_ok (accept_of_ne hk)]
    rfl

theorem pairs_succ (n : Nat) (c : Cursor) : pairs expr (n + 1) c =
    (do let x ← pairItem expr
        x.elim (pure []) fun x => do return x :: (← pairs expr n) :
          Parse (List (Expr × Expr))) c := by
  by_cases hk : c.peek.kind = .rightBrace
  · rw [pairs, bind_of_ok (peekKind_apply c), pairItem, bind_assoc, bind_of_ok (peekKind_apply c),
      if_pos hk, if_pos hk]
    rfl
  · rw [pairs, bind_of_ok (peekKind_apply c), pairItem, bind_assoc, bind_of_ok (peekKind_apply c),
      if_neg hk, if_neg hk]
    simp only [bind_assoc]
    refine congrFun (bind_congr fun _ => bind_congr fun key => bind_congr fun _ =>
      bind_congr fun _ => bind_congr fun value => bind_congr fun next => ?_) c
    by_cases hn : next ≠ .rightBrace
    · rw [if_pos hn, if_pos hn, bind_assoc]
      rfl
    · rw [if_neg hn, if_neg hn]
      rfl

theorem stmts_succ (n : Nat) (c : Cursor) : stmts expr (n + 1) c =
    (do let x ← stmtItem expr
        x.elim (pure []) fun x => do return x :: (← stmts expr n) : Parse (List Stmt)) c := by
  rw [stmts, stmtItem, bind_assoc, bind_of_ok (current_apply c), bind_of_ok (current_apply c)]
  cases hk : c.current.kind
  case eof => rfl
  case rightBrace => rfl
  all_goals
    simp only [bind_assoc, pure_bind]
    rfl

/-- Some tokens have been passed, and the end has not been reached. -/
theorem Outcome.collects {item : Parse (Option α)} {Q : Option α → List Token → Cursor → Prop}
    {place : Cursor → Prop} (h : ∀ c, place c → Outcome c Q (item c))
    (hQ : ∀ x ts c', Q (some x) ts c' → ts ≠ [] ∧ place c') : Collects item place := by
  intro c x c' hc hr
  have hout := h c hc
  rw [hr] at hout
  obtain ⟨ts, hp, hq⟩ := hout
  obtain ⟨hts, hc'⟩ := hQ x ts c' hq
  have hpos := List.length_pos_iff.mpr hts
  refine ⟨?_, hc'⟩
  rw [hp.tokens_eq, List.length_append]
  omega

/-- What a round of a list leaves behind it. -/
def Onward (x : Option α) (ts : List Token) (c : Cursor) : Prop :=
  x.isSome → ts ≠ [] ∧ ¬c.current.isEof

theorem listItem_collects :
    Collects (listItem expression) fun c => ¬c.current.isEof := by
  refine Outcome.collects (Q := Onward) (fun c hc => ?_) fun x ts c' h => h rfl
  refine .accept hc (fun hk => ?_) (fun _ => .pure nofun)
  have h1 := Token.not_isEof_of_kind hk nofun
  refine .advance h1 (.bind (expression_sound _ _ _ (Nat.le_refl _))
    fun e ts c2 _ ⟨⟨h2, _⟩, _⟩ => .pure fun _ => ⟨List.cons_ne_nil _ _, h2⟩)

theorem paramItem_collects : Collects paramItem fun c => ¬c.current.isEof := by
  refine Outcome.collects (Q := Onward) (fun c hc => ?_) fun x ts c' h => h rfl
  refine .accept hc (fun hk => ?_) (fun _ => .pure nofun)
  have h1 := Token.not_isEof_of_kind hk nofun
  refine .expect h1 fun hi => .currentIdent (.pure fun _ => ⟨List.cons_ne_nil _ _, ?_⟩)
  exact Token.not_isEof_of_kind hi nofun

theorem pairItem_collects : Collects (pairItem expression) fun c => ¬c.current.isEof := by
  refine Outcome.collects (Q := Onward) (fun c hc => ?_) fun x ts c' h => h rfl
  refine .peekKind ?_
  split
  · exact .pure nofun
  refine .advance hc (.bind (expression_sound _ _ _ (Nat.le_refl _))
    fun key ks c1 _ ⟨⟨h1, _⟩, _⟩ => .expect h1 fun hk => ?_)
  have h2 := Token.not_isEof_of_kind hk nofun
  refine .advance h2 (.bind (expression_sound _ _ _ (Nat.le_refl _))
    fun value vs c3 _ ⟨⟨h3, _⟩, _⟩ => .peekKind ?_)
  split
  · exact .expect h3 fun hm => .pure fun _ =>
      ⟨List.cons_ne_nil _ _, Token.not_isEof_of_kind hm nofun⟩
  · exact .pure fun _ => ⟨List.cons_ne_nil _ _, h3⟩

theorem stmtItem_collects : Collects (stmtItem expression) fun _ => True := by
  refine Outcome.collects (Q := fun x ts _ => x.isSome → ts ≠ []) (fun c _ => .current ?_)
    fun x ts c' h => ⟨h rfl, trivial⟩
  have hstmt : Outcome c (fun x ts _ => x.isSome → ts ≠ [])
      ((do let s ← stmt expression; advance; return some s : Parse (Option Stmt)) c) := by
    refine .bind (stmt_sound (expression_sound _) (Nat.le_refl _)) fun s ts c1 _ ⟨h1, _⟩ => ?_
    exact .advance h1 (.pure fun _ => by simp)
  cases hk : c.current.kind
  case rightBrace => exact .pure nofun
  case eof => exact unclosed_sound hk
  all_goals exact hstmt

/-! ## The loop of operators -/

def operatorRound (n : Nat) (p : Precedence) (lhs : Expr) : Parse (Expr ⊕ Expr) := do
  if p < .ofKind (← peekKind) then
    advance
    return .inl (← operator expression n lhs)
  else
    return .inr lhs

theorem loop_operators (p : Precedence) (m : Nat) : ∀ (c : Cursor) (lhs : Expr),
    ¬c.current.isEof → c.tokens.length ≤ m →
    Loop (operatorRound n p) lhs c (operators expression n p m lhs c) := by
  induction m with
  | zero => exact fun c lhs hc hm => absurd (Cursor.isEof_of_length_le hm) hc
  | succ m ih =>
      intro c lhs hc hm
      by_cases hp : p < .ofKind c.peek.kind
      · have hlen := length_advance hc
        have hround : operatorRound n p lhs c =
            (do return .inl (← operator expression n lhs) : Parse (Expr ⊕ Expr)) c.advance := by
          rw [operatorRound, bind_of_ok (peekKind_apply c), if_pos hp]
          rfl
        have hc0 : Behind (fun _ => True) c.advance.nesting c := ⟨hc, rfl, trivial⟩
        obtain ⟨-, hc1⟩ := expression_shelters.plain (isPlain_of_lt hp) hc0 rfl
        have hended : Ended (fun _ => True) _ _ _ (operator expression n lhs c.advance) :=
          operator_ended expression_shelters seeds trivial hc1
        have hloop : operators expression n p (m + 1) lhs c =
            (do let lhs ← operator expression n lhs; operators expression n p m lhs : Parse Expr)
              c.advance := by
          rw [operators, bind_of_ok (peekKind_apply c), if_pos hp]
          rfl
        rw [hloop]
        cases hr : operator expression n lhs c.advance with
        | ok e c2 =>
            rw [hr] at hended
            have hle := hended.length_ok
            rw [bind_of_ok hr]
            exact .again (hround.trans (bind_of_ok hr)) (by omega)
              (ih c2 e hended.2.2.live (by omega))
        | error e c2 =>
            rw [bind_of_error hr]
            exact .failed (hround.trans (bind_of_error hr))
      · rw [operators_of_not_lt hp]
        refine .done ?_
        rw [operatorRound, bind_of_ok (peekKind_apply c), if_neg hp]
        rfl

end Parse

/-! ## Recovery and the program -/

namespace Cursor

variable {n : Nat} {c : Cursor}

def synchronizeRound (depth : Nat) (_ : Unit) : Parse (Unit ⊕ Unit) := fun c =>
  if c.current.isEof then .ok (.inr ()) c
  else if c.current.kind = .semicolon ∧ c.nesting ≤ depth then .ok (.inr ()) c.advance
  else if c.advance.nesting ≤ depth ∧
      (c.advance.current.kind = .kwLet ∨ c.advance.current.kind = .kwReturn) then
    .ok (.inr ()) c.advance
  else .ok (.inl ()) c.advance

def attemptRound (ss : Program) : Parse (Program ⊕ Program) := fun c =>
  if c.current.isEof then .ok (.inr ss) c
  else
    match Parse.statement.run c with
    | .ok s c' => .ok (.inl (ss ++ [s])) c'.advance
    | .error e c' => .ok (.inl ss) (c'.recover c.nesting e)

theorem loop_synchronize (depth n : Nat) : ∀ c : Cursor, c.tokens.length ≤ n →
    Loop (synchronizeRound depth) () c (.ok () (c.synchronize depth n)) := by
  induction n with
  | zero =>
      intro c hn
      exact .done (if_pos (isEof_of_length_le hn))
  | succ n ih =>
      intro c hn
      rw [synchronize]
      split
      · exact .done (if_pos ‹_›)
      rename_i hc
      have hlen := Parse.length_advance hc
      split
      · exact .done (by rw [synchronizeRound, if_neg hc, if_pos ‹_›])
      rename_i hsemicolon
      dsimp only
      split
      · exact .done (by rw [synchronizeRound, if_neg hc, if_neg hsemicolon, if_pos ‹_›])
      · refine .again ?_ ?_ (ih c.advance (by omega))
        · rw [synchronizeRound, if_neg hc, if_neg hsemicolon, if_neg ‹_›]
        · omega

theorem loop_statements (n : Nat) : ∀ (c : Cursor) (ss : Program), c.tokens.length ≤ n →
    Loop attemptRound ss c
      (.ok (ss ++ (c.statementsWithin n).1) (c.statementsWithin n).2) := by
  induction n with
  | zero =>
      intro c ss hn
      rw [statementsWithin_of_isEof 0 (isEof_of_length_le hn), List.append_nil]
      exact .done (if_pos (isEof_of_length_le hn))
  | succ n ih =>
      intro c ss hn
      by_cases hc : c.current.isEof
      · rw [statementsWithin_of_isEof _ hc, List.append_nil]
        exact .done (if_pos hc)
      obtain ⟨⟨ts, hts, hcourse⟩, -⟩ := next_course hc
      have hlen := congrArg List.length hcourse.tokens_eq
      have hpos := List.length_pos_iff.mpr hts
      rw [List.length_append] at hlen
      cases hr : Parse.statement c with
      | ok s c' =>
          have hround : attemptRound ss c = .ok (.inl (ss ++ [s])) c'.advance := by
            rw [attemptRound, if_neg hc, EStateM.run, hr]
          rw [next_of_ok hr] at hlen
          have hrest := ih c'.advance (ss ++ [s]) (by omega)
          rw [List.append_assoc] at hrest
          rw [statementsWithin_of_ok hc hr]
          exact .again hround (by omega) hrest
      | error e c' =>
          have hround : attemptRound ss c = .ok (.inl ss) (c'.recover c.nesting e) := by
            rw [attemptRound, if_neg hc, EStateM.run, hr]
          rw [next_of_error hr] at hlen
          rw [statementsWithin_of_error hc hr]
          exact .again hround (by omega) (ih _ ss (by omega))

end Cursor

/-! ## All loops -/

/-- From the place `c` every loop of the parser ends, round by round, as it does with the bound
`n`. The loops of lists and operators begin behind a token that is not the end. -/
structure Progress (c : Cursor) (n : Nat) : Prop where
  program : Loop Cursor.attemptRound [] c (.ok (c.statementsWithin n).1 (c.statementsWithin n).2)
  synchronize (depth : Nat) :
    Loop (Cursor.synchronizeRound depth) () c (.ok () (c.synchronize depth n))
  block : Loop (Parse.collect (Parse.stmtItem Parse.expression)) [] c
    (Parse.stmts Parse.expression n c)
  hash : ¬c.current.isEof → Loop (Parse.collect (Parse.pairItem Parse.expression)) [] c
    (Parse.pairs Parse.expression n c)
  list : ¬c.current.isEof → Loop (Parse.collect (Parse.listItem Parse.expression)) [] c
    (Parse.listTail Parse.expression n c)
  params : ¬c.current.isEof → Loop (Parse.collect Parse.paramItem) [] c (Parse.paramsTail n c)
  operators (p : Precedence) (lhs : Expr) : ¬c.current.isEof →
    Loop (Parse.operatorRound n p) lhs c (Parse.operators Parse.expression n p n lhs c)

open Parse in
/-- Any bound that is not less than the number of tokens ahead does. -/
theorem progress {c : Cursor} {n : Nat} (hn : c.tokens.length ≤ n) : Progress c n := by
  -- where a token is ahead, the bound is not zero
  have hpos {R : Cursor → Prop} (d : Cursor) (hd : ¬d.current.isEof)
      (hzero : d.tokens.length ≤ 0) : R d :=
    (hd (Cursor.isEof_of_length_le hzero)).elim
  exact {
    program := Cursor.loop_statements n c [] hn
    synchronize := fun depth => Cursor.loop_synchronize depth n c hn
    block := loop_collect_nil rfl (loop_collect stmtItem_collects (fun d _ hzero =>
      ⟨_, d, by rw [stmtItem, bind_of_ok (current_apply d), current_of_length_le hzero]; rfl, rfl⟩)
      stmts_succ n c [] trivial hn)
    hash := fun hc => loop_collect_nil rfl
      (loop_collect pairItem_collects hpos pairs_succ n c [] hc hn)
    list := fun hc => loop_collect_nil rfl
      (loop_collect listItem_collects hpos listTail_succ n c [] hc hn)
    params := fun hc => loop_collect_nil rfl
      (loop_collect paramItem_collects hpos paramsTail_succ n c [] hc hn)
    operators := fun p lhs hc => loop_operators p n c lhs hc hn }

end Monkey
