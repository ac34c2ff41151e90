import Monkey.Proofs.Parse.Framing
import Monkey.Proofs.Syntax.Tree

/-!
# The spans of a tree

The parser makes the span of a node of the first token of it, or of its left operand, and of the
token where it stands when the node is complete. On the way there it has read the parts of the node
one after the other; so their spans stand in a row inside the span of the node.
-/

namespace Monkey

/-! ## Spans in a row -/

/-- The span is not empty, and its ends are at places where `B` holds. -/
structure Span.Bounded (B : UInt32 → Prop) (s : Span) : Prop where
  lt : s.start < s.stop
  start : B s.start
  stop : B s.stop

theorem Span.Bounded.le {B : UInt32 → Prop} {s : Span} (h : s.Bounded B) : s.start ≤ s.stop :=
  UInt32.le_of_lt h.lt

/-- The spans stand one after the other between two offsets. -/
inductive Row (B : UInt32 → Prop) : UInt32 → List Span → UInt32 → Prop
  | nil {lo hi : UInt32} : lo ≤ hi → Row B lo [] hi
  | cons {lo hi : UInt32} {s : Span} {ss : List Span} : lo ≤ s.start → s.Bounded B →
      Row B s.stop ss hi → Row B lo (s :: ss) hi

namespace Row

variable {B : UInt32 → Prop} {lo lo' mid hi hi' : UInt32} {s : Span} {ss ss' : List Span}

theorem single (h : s.Bounded B) : Row B s.start [s] s.stop :=
  .cons (UInt32.le_refl _) h (.nil (UInt32.le_refl _))

theorem le (h : Row B lo ss hi) : lo ≤ hi := by
  induction h with
  | nil h => exact h
  | cons hlo hs _ ih => exact UInt32.le_trans hlo (UInt32.le_trans hs.le ih)

theorem mono_left (hlo : lo' ≤ lo) (h : Row B lo ss hi) : Row B lo' ss hi := by
  cases h with
  | nil h => exact .nil (UInt32.le_trans hlo h)
  | cons hle hs hrest => exact .cons (UInt32.le_trans hlo hle) hs hrest

theorem append (h : Row B lo ss mid) (h' : Row B mid ss' hi) : Row B lo (ss ++ ss') hi := by
  induction h with
  | nil hle => exact h'.mono_left hle
  | cons hle hs _ ih => exact .cons hle hs (ih h')

theorem mono_right (hhi : hi ≤ hi') (h : Row B lo ss hi) : Row B lo ss hi' :=
  List.append_nil ss ▸ h.append (.nil hhi)

theorem start_le (h : Row B lo ss hi) : ∀ s ∈ ss, lo ≤ s.start := by
  induction h with
  | nil => exact List.forall_mem_nil _
  | cons hle hs _ ih =>
      exact List.forall_mem_cons.mpr ⟨hle, fun t ht =>
        UInt32.le_trans (UInt32.le_trans hle hs.le) (ih t ht)⟩

theorem stop_le (h : Row B lo ss hi) : ∀ s ∈ ss, s.stop ≤ hi := by
  induction h with
  | nil => exact List.forall_mem_nil _
  | cons _ _ hrest ih => exact List.forall_mem_cons.mpr ⟨hrest.le, ih⟩

/-- The row stops where the last span stops. -/
theorem last (h : Row B lo (ss ++ [s]) hi) : Row B lo (ss ++ [s]) s.stop := by
  induction ss generalizing lo with
  | nil =>
      cases h with
      | cons hle hs _ => exact .cons hle hs (.nil (UInt32.le_refl _))
  | cons t ss ih =>
      cases h with
      | cons hle hs hrest => exact .cons hle hs (ih hrest)

theorem pairwise (h : Row B lo ss hi) : ss.Pairwise fun s t => s.stop ≤ t.start := by
  induction h with
  | nil => exact .nil
  | cons _ _ hrest ih => exact .cons hrest.start_le ih

end Row

theorem Span.merge_eq {a b : Span} (hstart : a.start ≤ b.start) (hstop : a.stop ≤ b.stop) :
    a.merge b = .between a.start b.stop := by
  have hmin : min a.start b.start = a.start := if_pos hstart
  have hmax : max a.stop b.stop = b.stop := if_pos hstop
  rw [merge, hmin, hmax]

/-! ## Trees laid out -/

/-- The span of every node in the tree is bounded, and the parts of the node stand in a row
inside it. -/
inductive Tree.Laid (B : UInt32 → Prop) : Tree → Prop
  | mk {t : Tree} : t.span.Bounded B → Row B t.span.start (t.children.map Tree.span) t.span.stop →
      (∀ u ∈ t.children, u.Laid B) → Tree.Laid B t

theorem Tree.Laid.bounded {B : UInt32 → Prop} {t : Tree} (h : t.Laid B) : t.span.Bounded B := by
  cases h with
  | mk hbounded _ _ => exact hbounded

namespace Cursor

variable {B : UInt32 → Prop} {c : Cursor}

/-- The tokens from the current one on stand one after the other. -/
structure Steady (B : UInt32 → Prop) (c : Cursor) : Prop where
  pairwise : c.tokens.Pairwise fun t u => t.span.stop ≤ u.span.start
  bounded : ∀ t ∈ c.tokens, t.span.Bounded B

namespace Steady

variable (h : c.Steady B) (hc : ¬c.current.isEof)
include h hc

theorem current : c.current.span.Bounded B :=
  h.bounded _ (by rw [tokens_eq_cons hc]; exact List.mem_cons_self)

theorem advance : c.advance.Steady B := by
  obtain ⟨hpairwise, hbounded⟩ := h
  rw [tokens_eq_cons hc] at hpairwise hbounded
  exact ⟨hpairwise.tail, fun t ht => hbounded t (List.mem_cons_of_mem _ ht)⟩

theorem stop_le (hc' : ¬c.advance.current.isEof) :
    c.current.span.stop ≤ c.advance.current.span.start := by
  have hpairwise := h.pairwise
  rw [tokens_eq_cons hc, tokens_eq_cons hc'] at hpairwise
  exact List.rel_of_pairwise_cons hpairwise List.mem_cons_self

end Steady

end Cursor

namespace Parse

open Cursor (Steady)

variable {B : UInt32 → Prop} {α β : Type} {s s' : Span} {t u : Tree} {ts us : List Tree}
  {c c1 c' : Cursor}

/-! ## Parts read so far -/

/-- These trees have been read one after the other, from where the span `s` starts up to the end of
the current token. -/
structure Lays (B : UInt32 → Prop) (s : Span) (ts : List Tree) (c : Cursor) : Prop where
  live : ¬c.current.isEof
  steady : Steady B c
  bound : B s.start
  start : s.start ≤ c.current.span.start
  stop : s.stop ≤ c.current.span.stop
  row : Row B s.start (ts.map Tree.span) c.current.span.stop
  laid : ∀ t ∈ ts, t.Laid B

/-- The tree has been read up to the end of the current token, and does not start in front of the
span. -/
structure Makes (B : UInt32 → Prop) (s : Span) (t : Tree) (c : Cursor) : Prop where
  start : s.start ≤ t.span.start
  lays : Lays B t.span [t] c

/-- The tree has been read from the first place to the second one. -/
structure Yields (B : UInt32 → Prop) (c : Cursor) (t : Tree) (c' : Cursor) : Prop
    extends Makes B c.current.span t c' where
  live : ¬c.current.isEof

namespace Lays

theorem here (hsteady : Steady B c) (hc : ¬c.current.isEof) : Lays B c.current.span [] c :=
  ⟨hc, hsteady, (hsteady.current hc).start, UInt32.le_refl _, UInt32.le_refl _,
    .nil (hsteady.current hc).le, List.forall_mem_nil _⟩

theorem current (h : Lays B s ts c) : c.current.span.Bounded B :=
  h.steady.current h.live

theorem advance (h : Lays B s ts c) (hc : ¬c.advance.current.isEof) : Lays B s ts c.advance := by
  have hsteady := h.steady.advance h.live
  have hle := h.steady.stop_le h.live hc
  have hstop := UInt32.le_trans hle (hsteady.current hc).le
  exact ⟨hc, hsteady, h.bound, UInt32.le_trans h.start (UInt32.le_trans h.current.le hle),
    UInt32.le_trans h.stop hstop, h.row.mono_right hstop, h.laid⟩

/-- Another tree is read from the next token on. -/
theorem next (h : Lays B s ts c) (ht : Yields B c.advance t c') : Lays B s (ts ++ [t]) c' := by
  obtain ⟨⟨hstart, h'⟩, hlive⟩ := ht
  have hle := UInt32.le_trans (h.steady.stop_le h.live hlive) hstart
  have hle' := UInt32.le_trans hle h'.start
  refine ⟨h'.live, h'.steady, h.bound, ?_, ?_, ?_, ?_⟩
  · exact UInt32.le_trans h.start (UInt32.le_trans h.current.le hle')
  · exact UInt32.le_trans h.stop (UInt32.le_trans hle' h'.current.le)
  · rw [List.map_append]
    exact h.row.append (h'.row.mono_left hle)
  · exact List.forall_mem_append.mpr ⟨h.laid, h'.laid⟩

/-- The node made of these trees, with a span up to the current token. -/
theorem node (h : Lays B s t.children c) (hspan : t.span = s.merge c.current.span) :
    Makes B s t c := by
  have hlt := UInt32.lt_of_le_of_lt h.start h.current.lt
  have hmerge := hspan.trans (Span.merge_eq h.start h.stop)
  have hstart : t.span.start = s.start := by rw [hmerge, Span.between_start]
  have hstop : t.span.stop = c.current.span.stop := by
    rw [hmerge, Span.between_stop (UInt32.le_of_lt hlt)]
  have hbounded : t.span.Bounded B :=
    ⟨hstart ▸ hstop ▸ hlt, hstart ▸ h.bound, hstop ▸ h.current.stop⟩
  exact ⟨hstart ▸ UInt32.le_refl _, h.live, h.steady, hstart ▸ h.bound, hstart ▸ h.start,
    hstop ▸ UInt32.le_refl _, hstop ▸ .single hbounded,
    List.forall_mem_singleton.mpr (.mk hbounded (hstart ▸ hstop ▸ h.row) h.laid)⟩

/-- The node made of these trees, with a span up to the last of them. -/
theorem node_last (h : Lays B s (ts ++ [u]) c) (hspan : t.span = s.merge u.span)
    (hchildren : t.children = ts ++ [u]) (hs : s.stop ≤ u.span.stop) : Makes B s t c := by
  have hu := (h.laid u (List.mem_append_right _ List.mem_cons_self)).bounded
  have hrow := h.row
  rw [List.map_append, List.map_singleton] at hrow
  have hmem : u.span ∈ ts.map Tree.span ++ [u.span] := List.mem_append_right _ List.mem_cons_self
  have hle := hrow.stop_le _ hmem
  have hlt := UInt32.lt_of_le_of_lt (hrow.start_le _ hmem) hu.lt
  have hmerge := hspan.trans (Span.merge_eq (hrow.start_le _ hmem) hs)
  have hstart : t.span.start = s.start := by rw [hmerge, Span.between_start]
  have hstop : t.span.stop = u.span.stop := by
    rw [hmerge, Span.between_stop (UInt32.le_of_lt hlt)]
  have hbounded : t.span.Bounded B := ⟨hstart ▸ hstop ▸ hlt, hstart ▸ h.bound, hstop ▸ hu.stop⟩
  have ht : t.Laid B := by
    refine .mk hbounded ?_ (hchildren ▸ h.laid)
    rw [hstart, hstop, hchildren, List.map_append, List.map_singleton]
    exact hrow.last
  exact ⟨hstart ▸ UInt32.le_refl _, h.live, h.steady, hstart ▸ h.bound, hstart ▸ h.start,
    hstop ▸ hle, (Row.single hbounded).mono_right (hstop ▸ hle), List.forall_mem_singleton.mpr ht⟩

/-- A node with the same span around one that has been read. -/
theorem wrap (h : Lays B t.span [t] c) (hspan : u.span = t.span) (hchildren : u.children = [t]) :
    Lays B u.span [u] c := by
  obtain ⟨hlive, hsteady, hbound, hstart, hstop, hrow, hlaid⟩ := h
  have hbounded := (hlaid t List.mem_cons_self).bounded
  have hu : u.Laid B :=
    .mk (hspan ▸ hbounded) (hspan ▸ hchildren ▸ .single hbounded) (hchildren ▸ hlaid)
  rw [hspan]
  refine ⟨hlive, hsteady, hbound, hstart, hstop, ?_, List.forall_mem_singleton.mpr hu⟩
  rw [List.map_singleton, hspan]
  exact hrow

end Lays

theorem Yields.wrap (h : Yields B c t c') (hspan : u.span = t.span) (hchildren : u.children = [t]) :
    Yields B c u c' :=
  ⟨⟨hspan ▸ h.start, h.lays.wrap hspan hchildren⟩, h.live⟩

/-- A single token. -/
theorem Yields.leaf (hsteady : Steady B c) (hc : ¬c.current.isEof) (hspan : t.span = c.current.span)
    (hchildren : t.children = []) : Yields B c t c := by
  refine ⟨Lays.node (hchildren ▸ .here hsteady hc) ?_, hc⟩
  rw [hspan, Span.merge_self (hsteady.current hc).le]

/-! ## Step by step -/

/-- Where these trees have been read, the parser ends, if it succeeds, with a value and at a place
of which `Q` holds. -/
def Follows (B : UInt32 → Prop) (s : Span) (ts : List Tree) (x : Parse α)
    (Q : α → Cursor → Prop) : Prop :=
  ∀ c a c', Lays B s ts c → x c = .ok a c' → Q a c'

/-- The parser of expressions reads them token by token. -/
def Laying (B : UInt32 → Prop) (expr : Precedence → Parse Expr) : Prop :=
  ∀ (p : Precedence) {c e c'}, Steady B c → expr p c = .ok e c' → Yields B c (.expr e) c'

namespace Follows

variable {expr : Precedence → Parse Expr} {n m : Nat} {Q : α → Cursor → Prop}

theorem pure {a : α} (h : ∀ c, Lays B s ts c → Q a c) : Follows B s ts (Pure.pure a) Q := by
  rintro c _ _ hc ⟨⟩
  exact h c hc

theorem bind {x : Parse β} {f : β → Parse α} {us : β → List Tree}
    (hx : Follows B s ts x fun b c => Lays B s (us b) c) (hf : ∀ b, Follows B s (us b) (f b) Q) :
    Follows B s ts (x >>= f) Q := by
  intro c a c' hc hr
  obtain ⟨b, c1, hb, hr⟩ := ok_of_bind hr
  exact hf b c1 a c' (hx c b c1 hc hb) hr

theorem expect {k : Kind} {f : Unit → Parse α} (hk : k ≠ .eof) (h : Follows B s ts (f ()) Q) :
    Follows B s ts (Parse.expect k >>= f) Q := by
  intro c a c' hc hr
  by_cases hp : c.peek.kind = k
  · rw [bind_of_ok (expect_of_eq hp)] at hr
    exact h _ a c' (hc.advance (Token.not_isEof_of_kind hp hk)) hr
  · cases (bind_of_error (expect_of_ne hp)).symm.trans hr

theorem accept {k : Kind} {f : Bool → Parse α} (hk : k ≠ .eof)
    (h : ∀ b, Follows B s ts (f b) Q) : Follows B s ts (Parse.accept k >>= f) Q := by
  intro c a c' hc hr
  by_cases hp : c.peek.kind = k
  · rw [bind_of_ok (accept_of_eq hp)] at hr
    exact h true _ a c' (hc.advance (Token.not_isEof_of_kind hp hk)) hr
  · rw [bind_of_ok (accept_of_ne hp)] at hr
    exact h false c a c' hc hr

theorem current {f : Token → Parse α} (h : ∀ t, Follows B s ts (f t) Q) :
    Follows B s ts (Parse.current >>= f) Q :=
  fun c a c' hc hr => h c.current c a c' hc hr

theorem look {f : Kind → Parse α} (h : ∀ k, Follows B s ts (f k) Q) :
    Follows B s ts (Parse.peekKind >>= f) Q :=
  fun c a c' hc hr => h c.peek.kind c a c' hc hr

theorem noOperand : Follows B s ts (do Parse.advance; Parse.noOperand : Parse α) Q :=
  fun _ _ _ _ hr => nomatch hr

theorem operand (hE : Laying B expr) (p : Precedence) {f : Expr → Parse α}
    (h : ∀ e, Follows B s (ts ++ [.expr e]) (f e) Q) :
    Follows B s ts (do Parse.advance; let e ← expr p; f e) Q := by
  intro c a c' hc hr
  obtain ⟨e, c1, he, hr⟩ := ok_of_bind (x := expr p) (s := c.advance) hr
  exact h e c1 a c' (hc.next (hE p (hc.steady.advance hc.live) he)) hr

theorem ident {f : Ident → Parse α} (h : ∀ x, Follows B s (ts ++ [.ident x]) (f x) Q) :
    Follows B s ts (do Parse.expect .ident; let x ← currentIdent; f x) Q := by
  intro c a c' hc hr
  by_cases hp : c.peek.kind = .ident
  · rw [bind_of_ok (expect_of_eq hp)] at hr
    have hlive : ¬c.advance.current.isEof := Token.not_isEof_of_kind hp (by decide)
    exact h _ c.advance a c' (hc.next (.leaf (hc.steady.advance hc.live) hlive rfl rfl)) hr
  · cases (bind_of_error (expect_of_ne hp)).symm.trans hr

end Follows

variable {node : α → Tree} {a : α} {expr : Precedence → Parse Expr} {n m : Nat}

/-- The last step: the node is made. -/
theorem Follows.finish {f : Span → α} (hspan : ∀ u, (node (f u)).span = u)
    (hchildren : ∀ u, (node (f u)).children = ts) :
    Follows B s ts (do return f (s.merge (← Parse.current).span)) fun a => Makes B s (node a) := by
  rintro c _ _ hc ⟨⟩
  exact Lays.node (hchildren _ ▸ hc) (hspan _)

/-- A construct is followed from its first token on. -/
theorem Follows.yields {f : Token → Parse α}
    (h : ∀ t, Follows B t.span [] (f t) fun a => Makes B t.span (node a)) (hsteady : Steady B c)
    (hc : ¬c.current.isEof) (hr : (Parse.current >>= f) c = .ok a c') : Yields B c (node a) c' :=
  ⟨h c.current c a c' (.here hsteady hc) hr, hc⟩

/-! ## Lists -/

section

variable (hE : Laying B expr)
include hE

theorem listTail_follows (k : Nat) : ∀ ts : List Tree,
    Follows B s ts (listTail expr k) fun es c => Lays B s (ts ++ es.map .expr) c := by
  induction k with
  | zero => exact fun ts => .pure fun c hc => by simpa using hc
  | succ k ih =>
      refine fun ts => .accept (by decide) fun b => ?_
      cases b with
      | false => exact .pure fun c hc => by simpa using hc
      | true =>
          exact .operand hE _ fun e => .bind (ih _) fun es => .pure fun c hc => by simpa using hc

theorem list_follows {close : Kind} (hclose : close ≠ .eof) :
    Follows B s ts (list expr n close) fun es c => Lays B s (ts ++ es.map .expr) c := by
  refine .accept hclose fun b => ?_
  cases b with
  | true => exact .pure fun c hc => by simpa using hc
  | false =>
      exact .operand hE _ fun e => .bind (listTail_follows hE n _) fun es =>
        .expect hclose (.pure fun c hc => by simpa using hc)

omit hE in
theorem paramsTail_follows (k : Nat) : ∀ ts : List Tree,
    Follows B s ts (paramsTail k) fun ps c => Lays B s (ts ++ ps.map .ident) c := by
  induction k with
  | zero => exact fun ts => .pure fun c hc => by simpa using hc
  | succ k ih =>
      refine fun ts => .accept (by decide) fun b => ?_
      cases b with
      | false => exact .pure fun c hc => by simpa using hc
      | true => exact .ident fun p => .bind (ih _) fun ps => .pure fun c hc => by simpa using hc

omit hE in
theorem params_follows :
    Follows B s ts (params n) fun ps c => Lays B s (ts ++ ps.map .ident) c := by
  refine .accept (by decide) fun b => ?_
  cases b with
  | true => exact .pure fun c hc => by simpa using hc
  | false =>
      exact .ident fun p => .bind (paramsTail_follows n _) fun ps =>
        .expect (by decide) (.pure fun c hc => by simpa using hc)

theorem pairs_follows (k : Nat) : ∀ ts : List Tree, Follows B s ts (pairs expr k) fun ps c =>
    Lays B s (ts ++ ps.flatMap fun p => [.expr p.1, .expr p.2]) c := by
  induction k with
  | zero => exact fun ts => .noOperand
  | succ k ih =>
      refine fun ts => .look fun next => ?_
      split
      · exact .pure fun c hc => by simpa using hc
      refine .operand hE _ fun key => .expect (by decide) ?_
      refine .operand hE _ fun value => .look fun next => ?_
      have hrest : Follows B s (ts ++ [.expr key] ++ [.expr value])
          (do return (key, value) :: (← pairs expr k)) fun ps c =>
            Lays B s (ts ++ ps.flatMap fun p => [.expr p.1, .expr p.2]) c :=
        .bind (ih _) fun ps => .pure fun c hc => by simpa using hc
      split
      · exact .expect (by decide) hrest
      · exact hrest

/-! ## Statements -/

theorem letStmt_yields (hsteady : Steady B c) (hc : ¬c.current.isEof) {a : Stmt}
    (hr : letStmt expr c = .ok a c') : Yields B c (.stmt a) c' := by
  rw [letStmt] at hr
  refine Follows.yields (fun t => ?_) hsteady hc hr
  exact .ident fun x => .expect (by decide) (.operand hE _ fun e => .accept (by decide) fun _ =>
    .finish (fun _ => rfl) fun _ => rfl)

theorem returnStmt_yields (hsteady : Steady B c) (hc : ¬c.current.isEof) {a : Stmt}
    (hr : returnStmt expr c = .ok a c') : Yields B c (.stmt a) c' := by
  rw [returnStmt] at hr
  refine Follows.yields (fun t => ?_) hsteady hc hr
  exact .operand hE _ fun e => .accept (by decide) fun _ => .finish (fun _ => rfl) fun _ => rfl

theorem exprStmt_yields (hsteady : Steady B c) {a : Stmt} (hr : exprStmt expr c = .ok a c') :
    Yields B c (.stmt a) c' := by
  obtain ⟨e, c1, he, hr⟩ := ok_of_bind hr
  have hyields := hE _ hsteady he
  have hrest : Follows B e.span [.expr e] (do let _ ← accept .semicolon; return Stmt.expr e e.span)
      fun s c => s = .expr e e.span ∧ Lays B e.span [.expr e] c :=
    .accept (by decide) fun _ => .pure fun c hc => ⟨rfl, hc⟩
  obtain ⟨rfl, hlays⟩ := hrest c1 a c' hyields.lays hr
  exact Yields.wrap (t := .expr e) ⟨⟨hyields.start, hlays⟩, hyields.live⟩ rfl rfl

theorem stmt_yields (hsteady : Steady B c) (hc : ¬c.current.isEof) {a : Stmt}
    (hr : stmt expr c = .ok a c') : Yields B c (.stmt a) c' := by
  by_cases hl : c.current.kind = .kwLet
  · exact letStmt_yields hE hsteady hc (stmt_of_let hl ▸ hr)
  by_cases hk : c.current.kind = .kwReturn
  · exact returnStmt_yields hE hsteady hc (stmt_of_return hk ▸ hr)
  · exact exprStmt_yields hE hsteady (stmt_of_ne hl hk ▸ hr)

/-- Behind the brace or behind a statement, the statements up to the closing brace are read. -/
theorem stmts_lays (k : Nat) : ∀ {ts : List Tree} {c : Cursor} {ss : List Stmt}, Lays B s ts c →
    stmts expr k c.advance = .ok ss c' → Lays B s (ts ++ ss.map .stmt) c' := by
  induction k with
  | zero => exact fun _ hr => nomatch hr
  | succ k ih =>
      intro ts c ss h hr
      by_cases he : c.advance.current.kind = .eof
      · rw [stmts_of_eof he] at hr
        cases hr
      have hlive : ¬c.advance.current.isEof := by simpa [Token.isEof] using he
      by_cases hb : c.advance.current.kind = .rightBrace
      · rw [stmts_of_rightBrace hb] at hr
        cases hr
        simpa using h.advance hlive
      rw [stmts_of_ne he hb] at hr
      obtain ⟨a, c1, ha, hr⟩ := ok_of_bind hr
      obtain ⟨as, c2, has, hr⟩ := ok_of_bind (x := stmts expr k) (s := c1.advance) hr
      cases hr
      have hnext := h.next (stmt_yields hE (h.steady.advance h.live) hlive ha)
      simpa using ih hnext has

theorem block_yields (hsteady : Steady B c) (hc : ¬c.current.isEof) {b : Block}
    (hr : block expr n c = .ok b c') : Yields B c (.block b) c' := by
  obtain ⟨ss, c1, hss, hr⟩ := ok_of_bind (x := stmts expr n) (s := c.advance) hr
  have hlays := stmts_lays hE n (.here hsteady hc) hss
  have hfinish : Follows B c.current.span (ss.map .stmt)
      (do return Block.mk ss (c.current.span.merge (← current).span))
      fun b => Makes B c.current.span (.block b) := .finish (fun _ => rfl) fun _ => rfl
  exact ⟨hfinish c1 b c' hlays hr, hc⟩

theorem Follows.block {Q : α → Cursor → Prop} {f : Block → Parse α}
    (h : ∀ b, Follows B s (ts ++ [.block b]) (f b) Q) :
    Follows B s ts (do Parse.expect .leftBrace; let b ← Parse.block expr n; f b) Q := by
  intro c a c' hc hr
  by_cases hp : c.peek.kind = .leftBrace
  · rw [bind_of_ok (expect_of_eq hp)] at hr
    obtain ⟨b, c1, hb, hr⟩ := ok_of_bind hr
    have hlive : ¬c.advance.current.isEof := Token.not_isEof_of_kind hp (by decide)
    exact h b c1 a c' (hc.next (block_yields hE (hc.steady.advance hc.live) hlive hb)) hr
  · cases (bind_of_error (expect_of_ne hp)).symm.trans hr

omit hE in
/-- A conditional behind `else` is the only statement of a block. -/
theorem Follows.elseIf {Q : α → Cursor → Prop} {f : Expr → Parse α} {x : Parse α}
    (hcond : ∀ {c e c'}, Steady B c → ¬c.current.isEof → cond expr n m c = .ok e c' →
      Yields B c (.expr e) c')
    (h : ∀ e, Follows B s (ts ++ [.block ⟨[.expr e e.span], e.span⟩]) (f e) Q)
    (hx : Follows B s ts x Q) :
    Follows B s ts (do
      if ← Parse.accept .kwIf then
        let e ← cond expr n m
        f e
      else
        x) Q := by
  intro c a c' hc hr
  by_cases hp : c.peek.kind = .kwIf
  · rw [bind_of_ok (accept_of_eq hp)] at hr
    obtain ⟨e, c1, he, hr⟩ := ok_of_bind (x := cond expr n m) (s := c.advance) hr
    have hlive : ¬c.advance.current.isEof := Token.not_isEof_of_kind hp (by decide)
    have hnested := hcond (hc.steady.advance hc.live) hlive he
    have hstmt := Yields.wrap (u := .stmt (.expr e e.span)) hnested rfl rfl
    exact h e c1 a c' (hc.next (hstmt.wrap rfl rfl)) hr
  · rw [bind_of_ok (accept_of_ne hp)] at hr
    exact hx c a c' hc hr

/-! ## Operands -/

theorem cond_yields (m : Nat) : ∀ {c e c'}, Steady B c → ¬c.current.isEof →
    cond expr n m c = .ok e c' → Yields B c (.expr e) c' := by
  induction m with
  | zero => exact fun _ _ hr => nomatch hr
  | succ m ih =>
      intro c e c' hsteady hc hr
      rw [cond] at hr
      refine Follows.yields (fun t => ?_) hsteady hc hr
      refine .expect (by decide) (.operand hE _ fun test => .expect (by decide) ?_)
      refine .block hE fun yes => .accept (by decide) fun more => ?_
      cases more with
      | false => exact .finish (fun _ => rfl) fun _ => rfl
      | true =>
          refine .elseIf ih (fun nested => .finish (fun _ => rfl) fun _ => rfl) ?_
          exact .block hE fun no => .finish (fun _ => rfl) fun _ => rfl

theorem function_yields (hsteady : Steady B c) (hc : ¬c.current.isEof) {e : Expr}
    (hr : function expr n c = .ok e c') : Yields B c (.expr e) c' := by
  rw [function] at hr
  refine Follows.yields (fun t => ?_) hsteady hc hr
  exact .expect (by decide) (.bind params_follows fun ps => .block hE fun body =>
    .finish (fun _ => rfl) fun _ => rfl)

theorem array_yields (hsteady : Steady B c) (hc : ¬c.current.isEof) {e : Expr}
    (hr : array expr n c = .ok e c') : Yields B c (.expr e) c' := by
  rw [array] at hr
  refine Follows.yields (fun t => ?_) hsteady hc hr
  exact .bind (list_follows hE (by decide)) fun es => .finish (fun _ => rfl) fun _ => rfl

theorem hash_yields (hsteady : Steady B c) (hc : ¬c.current.isEof) {e : Expr}
    (hr : hash expr n c = .ok e c') : Yields B c (.expr e) c' := by
  rw [hash] at hr
  refine Follows.yields (fun t => ?_) hsteady hc hr
  exact .bind (pairs_follows hE n _) fun ps =>
    .expect (by decide) (.finish (fun _ => rfl) fun _ => rfl)

omit hE in
theorem integer_yields (hsteady : Steady B c) (hc : ¬c.current.isEof) {e : Expr}
    (hr : integer c = .ok e c') : Yields B c (.expr e) c' := by
  rw [integer, bind_of_ok (current_apply c)] at hr
  cases hi : Text.int64? c.current.lexeme <;> rw [hi] at hr <;> cases hr
  exact .leaf hsteady hc rfl rfl

theorem unary_yields {op : UnaryOp} (hsteady : Steady B c) (hc : ¬c.current.isEof) {e : Expr}
    (hr : unary expr op c = .ok e c') : Yields B c (.expr e) c' := by
  obtain ⟨rhs, c1, hrhs, hr⟩ := ok_of_bind (x := expr .unary) (s := c.advance) hr
  cases hr
  have hyields := hE _ (hsteady.advance hc) hrhs
  have hle := UInt32.le_trans (hsteady.stop_le hc hyields.live) hyields.start
  have hself := (hyields.lays.laid _ List.mem_cons_self).bounded.le
  have hnext := (Lays.here hsteady hc).next hyields
  exact ⟨hnext.node_last rfl rfl (UInt32.le_trans hle hself), hc⟩

/-- The span is that of the expression in the parentheses. -/
theorem grouped_yields (hsteady : Steady B c) (hc : ¬c.current.isEof) {e : Expr}
    (hr : grouped expr c = .ok e c') : Yields B c (.expr e) c' := by
  obtain ⟨c1, he, hp, rfl⟩ := grouped_ok hr
  have hyields := hE _ (hsteady.advance hc) he
  have hle := UInt32.le_trans (hsteady.current hc).le (hsteady.stop_le hc hyields.live)
  have hlays := hyields.lays.advance (Token.not_isEof_of_kind hp (by decide))
  exact ⟨⟨UInt32.le_trans hle hyields.start, hlays⟩, hc⟩

theorem operand_yields (hsteady : Steady B c) {e : Expr}
    (hr : operand expr n c = .ok e c') : Yields B c (.expr e) c' := by
  rw [operand, bind_of_ok (current_apply c)] at hr
  have hlive {k : Kind} (hk : c.current.kind = k) (hne : k ≠ .eof) : ¬c.current.isEof :=
    Token.not_isEof_of_kind hk hne
  cases hkind : c.current.kind <;> rw [hkind] at hr
  case integer => exact integer_yields hsteady (hlive hkind (by decide)) hr
  case ident | string | kwTrue | kwFalse =>
    cases hr
    exact .leaf hsteady (hlive hkind (by decide)) rfl rfl
  case bang | minus => exact unary_yields hE hsteady (hlive hkind (by decide)) hr
  case leftParen => exact grouped_yields hE hsteady (hlive hkind (by decide)) hr
  case kwIf => exact cond_yields hE _ hsteady (hlive hkind (by decide)) hr
  case kwFn => exact function_yields hE hsteady (hlive hkind (by decide)) hr
  case leftBracket => exact array_yields hE hsteady (hlive hkind (by decide)) hr
  case leftBrace => exact hash_yields hE hsteady (hlive hkind (by decide)) hr
  all_goals cases hr

/-! ## Operators -/

variable {lhs : Expr}

theorem call_follows : Follows B lhs.span [.expr lhs] (call expr n lhs) fun e =>
    Makes B lhs.span (.expr e) :=
  .bind (list_follows hE (by decide)) fun args => .finish (fun _ => rfl) fun _ => rfl

theorem index_follows : Follows B lhs.span [.expr lhs] (index expr lhs) fun e =>
    Makes B lhs.span (.expr e) :=
  .operand hE _ fun _ => .expect (by decide) (.finish (fun _ => rfl) fun _ => rfl)

theorem binary_follows (op : BinaryOp) (p : Precedence) :
    Follows B lhs.span [.expr lhs] (binary expr op p lhs) fun e => Makes B lhs.span (.expr e) := by
  refine .operand hE _ fun rhs => .pure fun c hc => hc.node_last rfl rfl ?_
  have hrhs := (hc.laid (.expr rhs) (by simp)).bounded.le
  exact UInt32.le_trans (List.rel_of_pairwise_cons hc.row.pairwise List.mem_cons_self) hrhs

theorem operator_follows : Follows B lhs.span [.expr lhs] (operator expr n lhs) fun e =>
    Makes B lhs.span (.expr e) := by
  refine .current fun t => ?_
  dsimp only
  split
  · exact call_follows hE
  · exact index_follows hE
  split
  · exact binary_follows hE _ _
  · exact .pure fun c hc => ⟨UInt32.le_refl _, hc⟩

theorem operators_yields (p : Precedence) (m : Nat) : ∀ {lhs : Expr} {c1 : Cursor} {e : Expr},
    Yields B c (.expr lhs) c1 → operators expr n p m lhs c1 = .ok e c' →
      Yields B c (.expr e) c' := by
  induction m with
  | zero =>
      rintro lhs c1 _ h ⟨⟩
      exact h
  | succ m ih =>
      intro lhs c1 e h hr
      by_cases hp : p < .ofKind c1.peek.kind
      · rw [operators_of_lt hp] at hr
        obtain ⟨e1, c2, he, hr⟩ := ok_of_bind hr
        have hne : c1.peek.kind ≠ .eof := fun hk => by
          rw [hk] at hp
          exact absurd hp (Nat.not_lt_zero _)
        have hlays := h.lays.advance (Token.not_isEof_of_kind rfl hne)
        obtain ⟨hstart, hmade⟩ := operator_follows hE c1.advance e1 c2 hlays he
        exact ih ⟨⟨UInt32.le_trans h.start hstart, hmade⟩, h.live⟩ hr
      · rw [operators_of_not_lt hp] at hr
        cases hr
        exact h

end

/-! ## Expressions and statements -/

theorem expressionWithin_laying (n : Nat) : Laying B (expressionWithin n) := by
  induction n with
  | zero => exact fun _ _ _ _ _ hr => nomatch hr
  | succ n ih =>
      intro p c e c' hsteady hr
      obtain ⟨lhs, c1, hlhs, hr⟩ := ok_of_bind hr
      exact operators_yields ih p n (operand_yields ih hsteady hlhs) hr

/-- A statement of the program is laid out like this. -/
theorem statement_yields (hsteady : Steady B c) (hc : ¬c.current.isEof) {a : Stmt}
    (hr : statement c = .ok a c') : Yields B c (.stmt a) c' :=
  stmt_yields (expressionWithin_laying c.left) hsteady hc hr

end Parse

end Monkey
