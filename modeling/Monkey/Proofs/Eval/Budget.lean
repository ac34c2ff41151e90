import Monkey.Proofs.Eval.Erasure
import Monkey.Proofs.Eval.Frame
import Monkey.Proofs.Eval.Handles
import Monkey.Proofs.Eval.Limit
import Monkey.Proofs.Parse.Expressible
import Monkey.Proofs.Scope.Binding

/-!
# The budget of calls

A function that calls itself once for each number below its argument uses up the calls that may be
nested one by one. It comes to its result exactly if its argument is less than the limit, whatever
has been evaluated before: however an evaluation ends, it leaves no call open.
-/

namespace Monkey

/-! ## Names of a scope -/

namespace Heap

variable {h : Heap} {env : Env} {name other : String} {v u : Value}

/-- A scope made for a call looks beyond the name bound in it. -/
theorem lookup_declare_push (henv : env.id < h.scopes.size) (hne : other ≠ name)
    (hb : h.Binds env other v) :
    ((h.push (some env)).2.declare (h.push (some env)).1 name u).lookup
      (h.push (some env)).1 other = some v := by
  have hscope : (h.push (some env)).2.scopes[(h.push (some env)).1.id]? =
      some ⟨[], some env⟩ := by
    simp [Heap.push, henv]
  have hout : ((h.push (some env)).2.declare (h.push (some env)).1 name u).Binds env other v :=
    (hb.push _).declare (Nat.ne_of_lt henv)
  rw [lookup_eq, getElem?_declare name u hscope]
  simp only [Entries.put, Entries.get?, if_neg hne, hout.lookup]

end Heap

/-! ## The function -/

namespace Countdown

def test : Expr :=
  .binary .equal (.ident "n" .zero) (.int 0 .zero) .zero

def previous : Expr :=
  .binary .subtract (.ident "n" .zero) (.int 1 .zero) .zero

/-- One more than what the function gives for the number before. -/
def again : Expr :=
  .binary .add (.int 1 .zero) (.call (.ident "count" .zero) [previous] .zero) .zero

def body : Block :=
  ⟨[.expr (.cond test ⟨[.expr (.int 0 .zero) .zero], .zero⟩
    (some ⟨[.expr again .zero], .zero⟩) .zero) .zero], .zero⟩

/-- The function is bound to a name and called. -/
def program (n : Nat) : Program :=
  [.bind ⟨"count", .zero⟩ (.fn [⟨"n", .zero⟩] body .zero) .zero,
    .expr (.call (.ident "count" .zero) [.int (.ofNat n) .zero] .zero) .zero]

def text (n : Nat) : String :=
  "let count = fn(n) \x7b if (n == 0) \x7b 0 \x7d else \x7b 1 + count(n - 1) \x7d \x7d; count(" ++
    toString n ++ ")"

/-! ## Evaluation -/

open Eval

/-- What a call of the function ends with if `n` more calls may be entered: the number, or the
fault of the call that is one too many. -/
inductive Counts (limit : Nat) (n k : Nat) : EStateM.Result Signal World Value → Prop
  | value (w : World) : k < n → Counts limit n k (.ok (.int (.ofNat k)) w)
  | fault (span : Span) (w : World) : n ≤ k →
      Counts limit n k (.error (.fault ⟨.callDepth limit, span⟩) w)

section

variable {apply : Apply} {env : Env} {w : World} {c : Closure} {v : Int64}

theorem eval_ident {name : String} {f : Value} (h : w.heap.lookup env name = some f)
    (hf : f.isSignal = false) : (Expr.ident name .zero).eval apply env w = .ok f w := by
  rw [Expr.eval, Value.ofName, Machine.lookup_bind, h]
  cases f with
  | signal s => cases hf
  | _ => rfl

theorem eval_test (hn : w.heap.lookup env "n" = some (.int v)) :
    test.eval apply env w = .ok (.bool (v = 0)) w := by
  rw [test, Expr.eval, bind_of_ok (eval_ident hn rfl)]
  rfl

theorem eval_again (hn : w.heap.lookup env "n" = some (.int v))
    (hcount : w.heap.lookup env "count" = some (.closure c)) :
    again.eval apply env w = (apply (.closure c) [.int (v - 1)] .zero >>= fun r =>
      lift .zero (Value.binary .add (.int 1) r)) w := by
  have hprevious : previous.eval apply env w = .ok (.int (v - 1)) w := by
    rw [previous, Expr.eval, bind_of_ok (eval_ident hn rfl)]
    rfl
  have hargs : Expr.evalAll apply env [previous] w = .ok [.int (v - 1)] w := by
    rw [Expr.evalAll, bind_of_ok hprevious]
    rfl
  have hone : (Expr.int 1 .zero).eval apply env w = .ok (.int 1) w := rfl
  have hcall : (Expr.call (.ident "count" .zero) [previous] .zero).eval apply env w =
      apply (.closure c) [.int (v - 1)] .zero w := by
    rw [Expr.eval, bind_of_ok (eval_ident hcount rfl), bind_of_ok hargs]
  rw [again, Expr.eval, bind_of_ok hone]
  simp only [Bind.bind, EStateM.bind, hcall]

theorem eval_body (hn : w.heap.lookup env "n" = some (.int v))
    (hcount : w.heap.lookup env "count" = some (.closure c)) :
    body.eval apply env w =
      if v = 0 then .ok (.int 0) w
      else (apply (.closure c) [.int (v - 1)] .zero >>= fun r =>
        lift .zero (Value.binary .add (.int 1) r)) w := by
  rw [body, Block.eval, evalAll_singleton, Expr.eval, bind_of_ok (eval_test hn)]
  by_cases hv : v = 0
  · simp only [hv, decide_true, Value.isTruthy, if_true]
    rfl
  · simp only [hv, decide_false, Value.isTruthy, if_false, Bool.false_eq_true]
    rw [Block.eval, evalAll_singleton, eval_again hn hcount]

end

theorem ofNat_succ_ne_zero {k : Nat} (hk : k + 1 < 2 ^ 63) : Int64.ofNat (k + 1) ≠ 0 := by
  intro h
  have := congrArg Int64.toInt h
  rw [Int64.toInt_ofNat_of_lt hk] at this
  simp at this
  omega

/-- One call around a call. -/
theorem Counts.succ {limit n k : Nat} {m : Eval Value} {w : World} (h : Counts limit n k (m w)) :
    Counts limit (n + 1) (k + 1)
      (catchReturn (m >>= fun r => lift .zero (Value.binary .add (.int 1) r)) w) := by
  cases hm : m w with
  | ok v w' =>
      rw [hm] at h
      cases h with
      | value _ hk =>
          have hsum : (1 : Int64) + .ofNat k = .ofNat (k + 1) := by
            rw [Int64.ofNat_add, Int64.add_comm]
            rfl
          rw [catchReturn, bind_of_ok hm, Value.binary, hsum]
          exact .value w' (Nat.succ_lt_succ hk)
  | error r w' =>
      rw [hm] at h
      cases h with
      | fault span _ hk =>
          rw [catchReturn, bind_of_error hm]
          exact .fault span w' (Nat.succ_le_succ hk)

/-- The function as a value. -/
def closure (id : Nat) (env : Env) : Closure :=
  ⟨id, [⟨"n", .zero⟩], body, env⟩

/-- The body of the function is evaluated in a world where its name is still bound to it. -/
theorem exists_run {apply : Apply} {id : Nat} {env : Env} {w : World} (v : Int64)
    (hbinds : w.heap.Binds env "count" (.closure (closure id env))) :
    ∃ w', w'.heap.Binds env "count" (.closure (closure id env)) ∧
      (closure id env).run apply [.int v] w =
        if v = 0 then .ok (.int 0) w'
        else catchReturn (apply (.closure (closure id env)) [.int (v - 1)] .zero >>= fun r =>
          lift .zero (Value.binary .add (.int 1) r)) w' := by
  let e := (w.heap.push (some env)).1
  let w' : World := { w with heap := (w.heap.push (some env)).2.declare e "n" (.int v) }
  have hrun : (closure id env).run apply [.int v] w = catchReturn (body.eval apply e) w' :=
    Machine.run_eq apply (closure id env) [.int v] w
  have hnew : e.id < (w.heap.push (some env)).2.scopes.size := by
    simp [e, Heap.push]
  have hn : w'.heap.lookup e "n" = some (.int v) := (Heap.binds_declare hnew).lookup
  have hcount : w'.heap.lookup e "count" = some (.closure (closure id env)) :=
    Heap.lookup_declare_push hbinds.lt (by decide) hbinds
  refine ⟨w', (hbinds.push _).declare (Nat.ne_of_lt hbinds.lt), ?_⟩
  rw [hrun, catchReturn, eval_body hn hcount]
  by_cases hv : v = 0
  · rw [if_pos hv, if_pos hv]
  · rw [if_neg hv, if_neg hv]
    rfl

/-- A call of the function, in any world where its name is bound to it. -/
theorem counts_apply {limit id : Nat} {env : Env} (n : Nat) : ∀ {k : Nat} {w : World} (span : Span),
    k < 2 ^ 63 → w.heap.Binds env "count" (.closure (closure id env)) →
    Counts limit n k
      (applyWithin limit n (.closure (closure id env)) [.int (.ofNat k)] span w) := by
  induction n with
  | zero => exact fun {k w} span _ _ => .fault span w (Nat.zero_le k)
  | succ n ih =>
      intro k w span hk hbinds
      obtain ⟨w', hbinds', hrun⟩ := exists_run (.ofNat k) hbinds
      have henter : applyWithin limit (n + 1) (.closure (closure id env)) [.int (.ofNat k)] span =
          (closure id env).run (applyWithin limit n) [.int (.ofNat k)] := rfl
      rw [henter, hrun]
      cases k with
      | zero => exact .value w' (Nat.zero_lt_succ n)
      | succ k =>
          have hprevious : Int64.ofNat (k + 1) - 1 = .ofNat k := by
            rw [Int64.ofNat_add]
            exact Int64.add_sub_cancel _ 1
          rw [if_neg (ofNat_succ_ne_zero hk), hprevious]
          exact (ih .zero (Nat.lt_of_succ_lt hk) hbinds').succ

theorem counts_program (limit : Nat) {env : Env} {w : World} (henv : w.HasEnv env) {k : Nat}
    (hk : k < 2 ^ 63) :
    Counts limit limit k
      (Stmt.evalAll (applyWithin limit limit) env (program k) .null w) := by
  let f : Value := .closure (closure w.functions env)
  let w' : World := ⟨w.heap.declare env "count" f, w.output, w.functions + 1⟩
  have hbind : (Stmt.bind ⟨"count", .zero⟩ (.fn [⟨"n", .zero⟩] body .zero) .zero).eval
      (applyWithin limit limit) env w = .ok .null w' := rfl
  have hbinds : w'.heap.Binds env "count" f := Heap.binds_declare henv
  have hargs : Expr.evalAll (applyWithin limit limit) env [.int (.ofNat k) .zero] w' =
      .ok [.int (.ofNat k)] w' := rfl
  rw [program, Stmt.evalAll, bind_of_ok hbind, evalAll_singleton, Expr.eval,
    bind_of_ok (eval_ident hbinds.lookup rfl), bind_of_ok hargs]
  exact counts_apply limit .zero hk hbinds

/-! ## Reading -/

/-- The words of the text. -/
def words (k : Nat) : List Word :=
  [.mark .kwLet, .ident "count", .mark .assign, .mark .kwFn, .mark .leftParen, .ident "n",
    .mark .rightParen, .mark .leftBrace, .mark .kwIf, .mark .leftParen, .ident "n", .mark .equal,
    .integer "0", .mark .rightParen, .mark .leftBrace, .integer "0", .mark .rightBrace,
    .mark .kwElse, .mark .leftBrace, .integer "1", .mark .plus, .ident "count", .mark .leftParen,
    .ident "n", .mark .minus, .integer "1", .mark .rightParen, .mark .rightBrace,
    .mark .rightBrace, .mark .semicolon, .ident "count", .mark .leftParen,
    .integer (String.ofList (Nat.toDigits 10 k)), .mark .rightParen]

theorem spelled_program {k : Nat} (hk : k < 2 ^ 63) :
    Stmt.SpelledList false (program k) (words k) := by
  have hnat : Text.int64? (String.ofList (Nat.toDigits 10 k)) = some (.ofNat k) := by
    have hk' := Int64.toInt_ofNat_of_lt hk
    have := int64?_toDigits (v := .ofNat k) (by omega)
    rwa [hk', Int.toNat_natCast] at this
  have hzero n : Expr.Spelled false n (.int 0 .zero) [.integer "0"] := .int rfl
  have hone n : Expr.Spelled false n (.int 1 .zero) [.integer "1"] := .int rfl
  have htest : Expr.Spelled false 0 test _ :=
    .binary (k := .equal) rfl (by decide) .ident (hzero _)
  have hprevious : Expr.Spelled false 0 previous _ :=
    .binary (k := .minus) rfl (by decide) .ident (hone _)
  have hagain : Expr.Spelled false 0 again _ :=
    .binary (k := .plus) rfl (by decide) (hone _) (.call .ident (.cons hprevious .nil))
  have hbody : Block.Spelled false body _ :=
    .mk (.cons (.expr (.cond (.mk htest (.mk (.cons (.expr (hzero 0)) (.omitted (.inr rfl)) .nil))
      (.block (.mk (.cons (.expr hagain) (.omitted (.inr rfl)) .nil))))))
      (.omitted (.inr rfl)) .nil)
  exact .cons (.bind (.fn hbody)) .written
    (.cons (.expr (.call .ident (.cons (.int hnat) .nil))) (.omitted (.inr rfl)) .nil)

theorem spells_text (k : Nat) : Spells (words k) (text k).toList := by
  have hblank : Gap [' '] := .blank rfl .nil
  have hcount : (Word.ident "count").Written ['c', 'o', 'u', 'n', 't'] :=
    .ident rfl (List.all_eq_true.mp rfl) rfl
  have hn : (Word.ident "n").Written ['n'] := .ident rfl nofun rfl
  have hdigit (c : Char) (h : c.isDigit) : (Word.integer (String.ofList [c])).Written [c] :=
    .integer (by simpa using h)
  have hmark {l : Kind} (cs : List Char) (h : l.text? = some (String.ofList cs)) :
      (Word.mark l).Written cs := by
    simpa using Word.Written.mark h
  have hnext {w : Word} {rest : List Char} (h : (rest.head?.all fun c => !w.joins c) = true) :
      ∀ c ∈ rest.head?, ¬w.joins c := by
    simpa [Option.all_eq_true] using h
  have htext : Spells (words k) _ :=
    .cons .nil (hmark ['l', 'e', 't'] rfl) (hnext (by rfl)) <|
    .cons hblank hcount (hnext (by rfl)) <|
    .cons hblank (hmark ['='] rfl) (hnext (by rfl)) <|
    .cons hblank (hmark ['f', 'n'] rfl) (hnext (by rfl)) <|
    .cons .nil (hmark ['('] rfl) (hnext (by rfl)) <|
    .cons .nil hn (hnext (by rfl)) <|
    .cons .nil (hmark [')'] rfl) (hnext (by rfl)) <|
    .cons hblank (hmark ['\x7b'] rfl) (hnext (by rfl)) <|
    .cons hblank (hmark ['i', 'f'] rfl) (hnext (by rfl)) <|
    .cons hblank (hmark ['('] rfl) (hnext (by rfl)) <|
    .cons .nil hn (hnext (by rfl)) <|
    .cons hblank (hmark ['=', '='] rfl) (hnext (by rfl)) <|
    .cons hblank (hdigit '0' rfl) (hnext (by rfl)) <|
    .cons .nil (hmark [')'] rfl) (hnext (by rfl)) <|
    .cons hblank (hmark ['\x7b'] rfl) (hnext (by rfl)) <|
    .cons hblank (hdigit '0' rfl) (hnext (by rfl)) <|
    .cons hblank (hmark ['\x7d'] rfl) (hnext (by rfl)) <|
    .cons hblank (hmark ['e', 'l', 's', 'e'] rfl) (hnext (by rfl)) <|
    .cons hblank (hmark ['\x7b'] rfl) (hnext (by rfl)) <|
    .cons hblank (hdigit '1' rfl) (hnext (by rfl)) <|
    .cons hblank (hmark ['+'] rfl) (hnext (by rfl)) <|
    .cons hblank hcount (hnext (by rfl)) <|
    .cons .nil (hmark ['('] rfl) (hnext (by rfl)) <|
    .cons .nil hn (hnext (by rfl)) <|
    .cons hblank (hmark ['-'] rfl) (hnext (by rfl)) <|
    .cons hblank (hdigit '1' rfl) (hnext (by rfl)) <|
    .cons .nil (hmark [')'] rfl) (hnext (by rfl)) <|
    .cons hblank (hmark ['\x7d'] rfl) (hnext (by rfl)) <|
    .cons hblank (hmark ['\x7d'] rfl) (hnext (by rfl)) <|
    .cons .nil (hmark [';'] rfl) (hnext (by rfl)) <|
    .cons hblank hcount (hnext (by rfl)) <|
    .cons .nil (hmark ['('] rfl) (fun _ _ => nofun) <|
    .cons .nil (.toDigits k) (hnext (by rfl)) <|
    .cons .nil (hmark [')'] rfl) (hnext (by rfl)) (.nil .nil)
  unfold text
  simpa using htext

theorem parse_text {k : Nat} (hk : k < 2 ^ 63) : (parse (text k)).errors = [] ∧
    (parse (text k)).program.erase = (program k).erase :=
  parse_of_spells (spelled_program hk) (spells_text k)

/-! ## Whole runs -/

theorem eq_int_of_erase {v : Value} {i : Int64} (h : v.erase = .int i) : v = .int i := by
  cases v <;> simp_all

/-- What the program comes to, in an environment of any world. -/
theorem run_countdown (limit : Nat) {env : Env} {w : World} (henv : w.HasEnv env) {k : Nat}
    (hk : k < 2 ^ 63) :
    (k < limit → (Program.run limit env (parse (text k)).program w).1 = .int (.ofNat k)) ∧
    (limit ≤ k → ∃ span, (Program.run limit env (parse (text k)).program w).1 =
      .signal (.fault ⟨.callDepth limit, span⟩)) := by
  obtain ⟨hvalue, -⟩ := Program.run_alike limit env (parse_text hk).2 (rfl : w.erase.prepend "" = _)
  have hcounts := counts_program limit henv hk
  have hrun : (Program.run limit env (program k) w).1 =
      ((Stmt.evalAll (applyWithin limit limit) env (program k) .null).settle w).1.unwrapReturn :=
    rfl
  rw [hrun, settle] at hvalue
  cases hr : Stmt.evalAll (applyWithin limit limit) env (program k) .null w with
  | ok v w' =>
      rw [hr] at hcounts hvalue
      cases hcounts with
      | value _ hlt =>
          exact ⟨fun _ => eq_int_of_erase hvalue, fun hle => absurd hlt (Nat.not_lt.mpr hle)⟩
  | error r w' =>
      rw [hr] at hcounts hvalue
      cases hcounts with
      | fault span _ hle =>
          refine ⟨fun hlt => absurd hlt (Nat.not_lt.mpr hle), fun _ => ?_⟩
          obtain ⟨⟨cause, span'⟩, hv, hcause⟩ := Value.fault_of_erase_eq hvalue.symm rfl
          cases hcause
          exact ⟨span', hv⟩

end Countdown

/-! ## One machine for many programs -/

namespace Machine

variable {limit d : Nat} {t : State}

/-- The counts of open calls that a machine may have between two evaluations: none before the first
one, and then what an evaluation ends with that began with such a count. -/
inductive Idle (limit : Nat) : Nat → Prop
  | new : Idle limit 0
  | ended {c : Control} {d : Nat} {w : World} {t : State} : Idle limit d →
      Reaches limit ⟨c, [], d, w⟩ t → t.step limit = none → Idle limit t.depth

/-- However an evaluation ends, the count is what it was. -/
theorem depth_eq_of_reaches {c : Control} {w : World} (h : Reaches limit ⟨c, [], d, w⟩ t)
    (ht : t.step limit = none) : t.depth = d := by
  rw [← ended_of_reaches h ht]
  exact (outcome_ended _ w d).2.1

theorem Idle.eq_zero (h : Idle limit d) : d = 0 := by
  induction h with
  | new => rfl
  | ended _ hreach ht ih => rw [depth_eq_of_reaches hreach ht, ih]

open Countdown in
/-- Whatever a machine has evaluated before, the countdown from a number comes to the number if that
is less than the limit, and to the fault of a call too many if it is not. -/
theorem reaches_countdown (h : Idle limit d) {env : Env} {w : World} (henv : w.HasEnv env) {k : Nat}
    (hk : k ≤ 2 ^ 63 - 1) :
    d = 0 ∧ (parse (text k)).errors = [] ∧
    ∃ t, Reaches limit ⟨.stmts env (parse (text k)).program .null, [], d, w⟩ t ∧
      t.step limit = none ∧ t.depth = 0 ∧
      Program.run limit env (parse (text k)).program w = (t.outcome.1.unwrapReturn, t.outcome.2) ∧
      (k < limit → t.outcome.1.unwrapReturn = .int (.ofNat k)) ∧
      (limit ≤ k → ∃ span, t.outcome.1.unwrapReturn =
        .signal (.fault ⟨.callDepth limit, span⟩)) := by
  cases h.eq_zero
  have hk' : k < 2 ^ 63 := by omega
  obtain ⟨hvalue, hfault⟩ := run_countdown limit henv hk'
  have herrors := (parse_text hk').1
  generalize (parse (text k)).program = p at hvalue hfault ⊢
  obtain ⟨t, hreach, ht⟩ : ∃ t, Reaches limit (.start env p w) t ∧ t.step limit = none :=
    ⟨_, start_reaches limit env p w, step_ended limit 0 _⟩
  have hrun := run_of_reaches env p w hreach ht
  rw [hrun] at hvalue hfault
  exact ⟨rfl, herrors, t, hreach, ht, depth_eq_of_reaches hreach ht, hrun, hvalue, hfault⟩

open Countdown in
/-- With two calls at a time the countdown from three fails, and that from one succeeds after it. -/
theorem reaches_countdown_after_fault :
    ∃ t, Reaches 2 ⟨.stmts ⟨0⟩ (parse (text 3)).program .null, [], 0, World.empty.newEnv.2⟩ t ∧
      t.step 2 = none ∧
      (∃ span, t.outcome.1.unwrapReturn = .signal (.fault ⟨.callDepth 2, span⟩)) ∧
      Idle 2 t.depth ∧ t.outcome.2.HasEnv ⟨0⟩ ∧
      ∃ u, Reaches 2 ⟨.stmts ⟨0⟩ (parse (text 1)).program .null, [], t.depth, t.outcome.2⟩ u ∧
        u.step 2 = none ∧ u.outcome.1.unwrapReturn = .int 1 := by
  have hnew : Idle 2 0 := .new
  have henv : World.empty.newEnv.2.HasEnv ⟨0⟩ := Nat.zero_lt_one
  obtain ⟨-, -, t, ht, hend, -, hrun, -, hfault⟩ :=
    reaches_countdown (k := 3) hnew henv (by decide)
  have hidle : Idle 2 t.depth := .ended .new ht hend
  have hext := (Node.run_safe 2 2 (.program (parse (text 3)).program)
    (World.Reached.empty.newEnv).closed henv).1
  have henv' : t.outcome.2.HasEnv ⟨0⟩ := by
    generalize (parse (text 3)).program = p at hrun hext
    exact congrArg Prod.snd hrun ▸ hext.hasEnv henv
  obtain ⟨-, -, u, hu, huend, -, -, hvalue, -⟩ :=
    reaches_countdown (k := 1) hidle henv' (by decide)
  exact ⟨t, ht, hend, hfault (by decide), hidle, henv', u, hu, huend, hvalue (by decide)⟩

end Machine

end Monkey
