import Mathlib.Logic.Relation
import Monkey.Proofs.Parse.Attempts
import Monkey.Proofs.Parse.Framing

/-!
# Where the nodes of a tree were read

Every expression of a tree, however deep inside, was climbed from some place on the way of the
parser, and its span frames the tokens that were passed there, but for parentheses around them.
-/

namespace Monkey

namespace Parse

open Cursor (Stretch)
open Token (Orderly)
open Relation (ReflTransGen)

variable {expr : Precedence → Parse Expr} {n m k : Nat} {c c1 c' : Cursor} {e lhs : Expr}
  {ts us : List Token}

/-! ## Nodes of a tree -/

/-- The expression was climbed over some of the tokens, and was not in parentheses there. -/
def ReadAmong (ts : List Token) (e : Expr) : Prop :=
  ∃ c us c', c.tokens <:+ ts ∧ Climbs ts.length c e us c' ∧ e.span.Bare us

/-- All expressions of the tree were read among the tokens. -/
def AllRead (ts : List Token) (q : Part) : Prop :=
  ∀ e, ReflTransGen Part.Child (.expr e) q → ReadAmong ts e

namespace AllRead

theorem readAmong (h : AllRead ts (.expr e)) : ReadAmong ts e :=
  h e .refl

theorem child {p q : Part} (h : AllRead ts q) (hp : Part.Child p q) : AllRead ts p :=
  fun e he => h e (he.tail hp)

theorem of_below (he : ReadAmong ts e) (h : Below (AllRead ts) e) : AllRead ts (.expr e) := by
  intro x hx
  rcases ReflTransGen.cases_tail hx with heq | ⟨q, hq, hchild⟩
  · cases heq
    exact he
  · exact h q hchild x hq

theorem of_children {s : Stmt} (h : ∀ q, Part.Child q (.stmt s) → AllRead ts q) :
    AllRead ts (.stmt s) := by
  intro x hx
  rcases ReflTransGen.cases_tail hx with heq | ⟨q, hq, hchild⟩
  · cases heq
  · exact h q hchild x hq

end AllRead

/-! ## Conditionals within larger bounds -/

/-- What the one parser reads, the other one reads in the same way. -/
def Extends {α : Type} (x y : Parse α) : Prop :=
  ∀ c a c', x c = .ok a c' → y c = .ok a c'

theorem Extends.refl {α : Type} (x : Parse α) : Extends x x := fun _ _ _ => id

theorem Extends.bind {α β : Type} {x y : Parse α} {f g : α → Parse β} (h : Extends x y)
    (hf : ∀ a, Extends (f a) (g a)) : Extends (x >>= f) (y >>= g) := by
  intro c b c' hr
  obtain ⟨a, c1, hx, hr⟩ := ok_of_bind hr
  rw [bind_of_ok (h c a c1 hx)]
  exact hf a c1 b c' hr

/-- The conditionals behind `else` are counted by the bound, and no others. -/
theorem cond_extends (hk : k ≤ m) : Extends (cond expr n k) (cond expr n m) := by
  induction k generalizing m with
  | zero => exact fun c e c' hr => nomatch hr
  | succ k ih =>
      obtain ⟨m, rfl⟩ := Nat.exists_eq_add_of_lt hk
      rw [cond, cond]
      refine .bind (.refl _) fun t => .bind (.refl _) fun _ => .bind (.refl _) fun _ =>
        .bind (.refl _) fun test => .bind (.refl _) fun _ => .bind (.refl _) fun _ =>
        .bind (.refl _) fun yes => .bind (.refl _) fun more => ?_
      cases more with
      | false => exact .refl _
      | true =>
          refine .bind (.refl _) fun nested => ?_
          cases nested with
          | false => exact .refl _
          | true => exact .bind (ih (by omega)) fun e => .refl _

/-! ## The way of the parser -/

/-- The place is in front of some of the last `k` of the tokens. -/
structure Among (ts : List Token) (k : Nat) (c : Cursor) : Prop where
  tokens : c.tokens <:+ ts
  length : c.tokens.length ≤ k

namespace Among

theorem length_le (h : Among ts k c) : c.tokens.length ≤ ts.length :=
  h.tokens.length_le

theorem mono (h : Among ts k c) (hk : k ≤ m) : Among ts m c :=
  ⟨h.tokens, Nat.le_trans h.length hk⟩

theorem advance (h : Among ts (k + 1) c) (hc : ¬c.current.isEof) : Among ts k c.advance where
  tokens := by
    have htokens := h.tokens
    rw [Cursor.tokens_eq_cons hc] at htokens
    exact (List.suffix_cons _ _).trans htokens
  length := by
    have hlen := length_advance hc
    have := h.length
    omega

end Among

/-- On its way over the last `k` of the tokens the parser makes such trees only. -/
abbrev Tracks (ts : List Token) (k : Nat) (expr : Precedence → Parse Expr) : Prop :=
  Ends (Among ts k) (AllRead ts) expr

section

variable (hts : Orderly ts)
include hts

theorem readAmong_of_operand (hc : c.tokens <:+ ts) (hk : c.current.kind ≠ .leftParen)
    (hr : operand expression ts.length c = .ok e c') : ReadAmong ts e := by
  have hn := hc.length_le
  obtain ⟨us, h⟩ := exists_operand (Nat.le_succ_of_le hn) hr
  exact ⟨c, us, c', hc, h, operand_bare (framedBelow _ _) hn (h.stretch.orderly hc hts) hk hr
    h.stretch⟩

theorem seeds_of_orderly : Seeds (Among ts k) (AllRead ts) expression ts.length := by
  intro m c c' e hm hk hG hr hbelow
  have hoperand : operand expression ts.length c = .ok e c' := by
    rw [operand, bind_of_ok (current_apply c), hk]
    exact cond_extends (Nat.le_succ_of_le hm) c e c' hr
  have hne : c.current.kind ≠ .leftParen := by
    rw [hk]
    decide
  exact .of_below (readAmong_of_operand hts hG.tokens hne hoperand) hbelow

variable (hE : Tracks ts k expression)
include hE

theorem operand_tracks (hc : Among ts (k + 1) c) :
    Ended (Among ts k) (fun e => AllRead ts (.expr e)) c.nesting c
      (operand expression ts.length c) := by
  refine (operand_ended hE (seeds_of_orderly hts) hc.advance).imp_ok fun e c' hr hbelow => ?_
  by_cases hk : c.current.kind = .leftParen
  · rw [operand, bind_of_ok (current_apply c), hk] at hr
    obtain ⟨c1, hinner, -, -⟩ := grouped_ok hr
    have hended := hE.ended .lowest (hc.advance (Token.not_isEof_of_kind hk (by decide)))
    rw [hinner] at hended
    exact hended.1
  · exact .of_below (readAmong_of_operand hts hc.tokens hk hr) hbelow

theorem operators_tracks (hc : c.tokens <:+ ts) (p : Precedence) {b : Nat} (m : Nat) :
    ∀ {lhs : Expr} {us : List Token} {c1 : Cursor}, Climbs ts.length c lhs us c1 →
      AllRead ts (.expr lhs) → Behind (Among ts k) b c1 →
      Ended (Among ts k) (fun e => AllRead ts (.expr e)) b c1
        (operators expression ts.length p m lhs c1) := by
  -- at each operator, what has been read so far was climbed from the place of the first operand
  induction m with
  | zero => exact fun _ hlhs hc1 => .pure hlhs hc1
  | succ m ih =>
      intro lhs us c1 h hlhs hc1
      by_cases hlt : p < .ofKind c1.peek.kind
      · have hlt' : .lowest < Precedence.ofKind c1.peek.kind :=
          Nat.lt_of_le_of_lt (Nat.zero_le _) hlt
        obtain ⟨ht, hc2⟩ := hE.plain (isPlain_of_lt hlt) hc1 rfl
        have hended := operator_ended hE (seeds_of_orderly hts) hlhs hc2
        rw [operators_of_lt hlt]
        refine .prepend ht (.within (Nat.le_refl b) hended fun e c3 hr hbelow hc3 => ?_)
        have hn := hc.length_le
        obtain ⟨vs, h', hs⟩ := h.exists_operator (Nat.le_succ_of_le hn) hlt' hr
        have horderly := h'.stretch.orderly hc hts
        have hbare := operator_bare (framedBelow _ _) hn horderly h hlt' hr hs
        exact ih h' (.of_below ⟨c, _, c3, hc, h', hbare⟩ hbelow) hc3
      · rw [operators_of_not_lt hlt]
        exact .pure hlhs hc1

end

theorem tracks_of_ended (h : ∀ (p : Precedence) {c : Cursor}, Among ts k c →
    Ended (Among ts k) (fun e => AllRead ts (.expr e)) c.nesting c (expression p c)) :
    Tracks ts k expression where
  ended := h
  declines := expression_shelters.declines
  onward hG hc := (hG.mono (Nat.le_succ _)).advance hc
  stmt := .of_children
  below h _ hq := h.child hq

theorem expression_tracks (hts : Orderly ts) (k : Nat) : Tracks ts k expression := by
  induction k with
  | zero =>
      refine tracks_of_ended fun p c hc => ?_
      rw [expression_eq p hc.length]
      exact .noOperand c
  | succ k ih =>
      refine tracks_of_ended fun p c hc => ?_
      have hn := hc.length_le
      rw [expression_recursive p c ts.length hn]
      refine .weaken (fun _ hG => hG.mono (Nat.le_succ k))
        (.within (Nat.le_refl _) (operand_tracks hts ih hc) fun lhs c1 hr hlhs hc1 => ?_)
      obtain ⟨us, h⟩ := exists_operand (Nat.le_succ_of_le hn) hr
      exact operators_tracks hts ih hc.tokens p _ h hlhs hc1

theorem statement_allRead {s : Stmt} (hts : Orderly ts) (hc : c.tokens <:+ ts)
    (hlive : ¬c.current.isEof) (hr : statement c = .ok s c') : AllRead ts (.stmt s) := by
  have hended := stmt_ended (expression_tracks hts ts.length) hlive ⟨hc, hc.length_le⟩
  rw [statement_eq] at hr
  rw [hr] at hended
  exact hended.1

end Parse

open Parse (AllRead expression_tracks statement_allRead)

/-- Whatever is read from a source, all its nodes were read among the tokens of it. -/
theorem Part.ReadFrom.allRead {text : String} {q : Part} (h : Part.ReadFrom text q)
    (hts : Token.Orderly (Cursor.ofStream (.ofText text)).tokens) :
    AllRead (Cursor.ofStream (.ofText text)).tokens q := by
  induction h with
  | stmt hs =>
      rw [parse, program_eq_attempts] at hs
      obtain ⟨a, ha, hs⟩ := List.mem_filterMap.mp hs
      obtain ⟨⟨us, hus⟩, hlive, -⟩ := Cursor.attemptsWithin_course _ _ a ha
      cases hr : Parse.statement a with
      | ok s c' =>
          rw [Cursor.statement?_of_ok hr] at hs
          cases hs
          exact statement_allRead hts ⟨us, hus.tokens_eq.symm⟩ hlive hr
      | error e c' =>
          rw [Cursor.statement?_of_error hr] at hs
          cases hs
  | @expr precedence e c he =>
      have hended := (expression_tracks hts _).ended precedence ⟨List.suffix_refl _, Nat.le_refl _⟩
      rw [he] at hended
      exact hended.1
  | child _ hchild ih => exact ih.child hchild

end Monkey
