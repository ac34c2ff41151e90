import Monkey.Proofs.Source.Printed
import Monkey.Syntax.Source

/-!
# The source of a tree reads back

Operators are printed in parentheses, and what is printed without any is closed by itself; so the
source of a tree groups as the tree does. This holds of trees without strings, which are printed
without their quotes, and without blocks, which are printed without their braces.
-/

namespace Monkey

open Scan (isWordStart isWordChar)

/-! ## Trees that are printed faithfully -/

mutual
/-- The expression is built of legal names, integers not below zero and truth values with operators,
calls, arrays, indices and hashes. -/
def Expr.Faithful : Expr → Prop
  | .ident name _ => LegalName name
  | .int v _ => 0 ≤ v.toInt
  | .bool _ _ => True
  | .unary _ operand _ => operand.Faithful
  | .binary _ lhs rhs _ => lhs.Faithful ∧ rhs.Faithful
  | .call callee args _ => callee.Faithful ∧ Expr.FaithfulAll args
  | .array items _ => Expr.FaithfulAll items
  | .index object key _ => object.Faithful ∧ key.Faithful
  | .hash pairs _ => Expr.FaithfulPairs pairs
  | .str _ _ | .cond _ _ _ _ | .fn _ _ _ => False

def Expr.FaithfulAll : List Expr → Prop
  | [] => True
  | e :: es => e.Faithful ∧ Expr.FaithfulAll es

def Expr.FaithfulPairs : List (Expr × Expr) → Prop
  | [] => True
  | (key, value) :: ps => key.Faithful ∧ value.Faithful ∧ Expr.FaithfulPairs ps
end

/-- A `let` or a `return` of such an expression. -/
def Stmt.Faithful : Stmt → Prop
  | .bind target value _ => LegalName target.name ∧ value.Faithful
  | .ret value _ => value.Faithful
  | .expr _ _ | .block _ => False

/-! ## Texts in front of others -/

namespace Renders

variable {ws vs : List Word} {cs ds : List Char}

/-- A mark in front of a text that does not go on with it. -/
theorem before {k : Kind} {text : String} (hk : k.text? = some text) (hne : cs ≠ [])
    (hjoins : ∀ c ∈ cs.head?, ¬(Word.mark k).joins c) (h : Renders ws cs) :
    Renders (.mark k :: ws) (text.toList ++ cs) := by
  intro vs rest hrest hvs
  obtain ⟨c, cs, rfl⟩ := List.exists_cons_of_ne_nil hne
  rw [List.append_assoc]
  exact .cons .nil (.mark hk) hjoins (h vs rest hrest hvs)

theorem name {name : String} (h : LegalName name) : Renders [.ident name] name.toList := by
  obtain ⟨c, cs, rfl, hc, hcs, hkey⟩ := h
  rw [String.toList_ofList]
  exact word (.ident hc hcs hkey) fun _ hj => hj

/-- A colon between a key and its value. -/
theorem pair (h : Renders ws cs) (h' : Renders vs ds) :
    Renders (ws ++ .mark .colon :: vs) (cs ++ (":".toList ++ ds)) :=
  h.append (by simp [isWordChar]) (.mark (k := .colon) rfl (fun _ => rfl) h')

theorem parenthesized (h : Renders ws cs) :
    Renders (.mark .leftParen :: ws ++ [.mark .rightParen]) ("(".toList ++ (cs ++ [')'])) :=
  enclosed (k := .leftParen) rfl (fun _ => rfl) rfl (fun _ => rfl) (by decide) h

end Renders

/-! ## Expressions -/

/-- No expression is printed with an equals sign in front, which would go on with `!`. -/
theorem Expr.source_head : (e : Expr) → e.Faithful →
    ∃ c cs, e.source.toList = c :: cs ∧ c ≠ '='
  | .ident name _, h => by
      obtain ⟨c, cs, rfl, hc, -⟩ := h
      refine ⟨c, cs, String.toList_ofList, ?_⟩
      rintro rfl
      cases hc
  | .int v _, h => by
      have hdigit : ∀ c ∈ Nat.toDigits 10 v.toInt.toNat, c.isDigit :=
        fun c hc => Nat.isDigit_of_mem_toDigits (by decide) (by decide) hc
      obtain ⟨c, cs, hcs⟩ := List.exists_cons_of_ne_nil (Nat.toDigits_ne_nil (b := 10)
        (n := v.toInt.toNat))
      refine ⟨c, cs, (Text.toList_ofInt64_of_nonneg h).trans hcs, ?_⟩
      rintro rfl
      exact absurd (hdigit '=' (hcs ▸ List.mem_cons_self)) (by decide)
  | .bool true _, _ => ⟨'t', ['r', 'u', 'e'], by rw [Expr.source]; rfl, by decide⟩
  | .bool false _, _ => ⟨'f', ['a', 'l', 's', 'e'], by rw [Expr.source]; rfl, by decide⟩
  | .unary _ _ _, _ | .binary _ _ _ _, _ | .index _ _ _, _ => by
      simp [Expr.source]
  | .array _ _, _ | .hash _ _, _ => by
      simp [Expr.source]
  | .call callee _ _, h => by
      obtain ⟨c, cs, hcs, hc⟩ := callee.source_head h.1
      exact ⟨c, _, by rw [Expr.source, String.toList_append, String.toList_append,
        String.toList_append, hcs]; rfl, hc⟩

mutual
/-- The source of the expression spells it at any place. -/
theorem Expr.exists_renders : (e : Expr) → e.Faithful →
    ∃ ws, Renders ws e.source.toList ∧ ∀ n, Expr.Spelled false n e ws
  | .ident name _, h => ⟨_, .name h, fun _ => .ident⟩
  | .int v _, h => by
      refine ⟨_, ?_, fun _ => .int (int64?_toDigits h)⟩
      rw [Expr.source, Text.toList_ofInt64_of_nonneg h]
      exact .digits _
  | .bool true _, _ => ⟨_, .word (.mark (k := .kwTrue) rfl) fun _ hc => hc, fun _ => .yes⟩
  | .bool false _, _ => ⟨_, .word (.mark (k := .kwFalse) rfl) fun _ hc => hc, fun _ => .no⟩
  | .unary op operand _, h => by
      obtain ⟨ws, hw, hs⟩ := operand.exists_renders h
      obtain ⟨c, cs, hcs, hc⟩ := operand.source_head h
      obtain ⟨k, hk, htext, hjoins⟩ := op.exists_symbol
      have hop : Renders (.mark k :: ws) (op.symbol.toList ++ operand.source.toList) := by
        refine .before htext (hcs ▸ List.cons_ne_nil _ _) (fun d hd hj => hc ?_) hw
        rw [hcs] at hd
        exact (Option.some.inj hd).trans (hjoins d hj)
      refine ⟨_, ?_, fun _ => .grouped (.unary hk (Nat.zero_le _) (hs _))⟩
      simpa [Expr.source] using hop.parenthesized
  | .binary op lhs rhs _, h => by
      obtain ⟨ls, hlw, hl⟩ := lhs.exists_renders h.1
      obtain ⟨rs, hrw, hr⟩ := rhs.exists_renders h.2
      obtain ⟨k, hk, htext⟩ := op.exists_symbol
      have hop : Renders (.mark k :: rs) (op.symbol.toList ++ ' ' :: rhs.source.toList) :=
        .before htext (List.cons_ne_nil _ _)
          (fun d hd => Option.some.inj hd ▸ Word.not_joins_blank _) hrw.blank
      refine ⟨_, ?_, fun _ => .grouped (.binary hk (Nat.zero_le _) (hl _) (hr _))⟩
      have hblank : ∀ c ∈ (' ' :: (op.symbol.toList ++ ' ' :: rhs.source.toList)).head?,
          ¬isWordChar c := by simp [isWordChar]
      simpa [Expr.source] using (hlw.append hblank hop.blank).parenthesized
  | .call callee args _, h => by
      obtain ⟨cs, hcw, hc⟩ := callee.exists_renders h.1
      obtain ⟨ws, hw, hs⟩ := Expr.exists_rendersAll args h.2
      refine ⟨_, ?_, fun _ => .call (hc _) hs⟩
      simpa [Expr.source] using hcw.append (by simp [isWordChar]) hw.parenthesized
  | .array items _, h => by
      obtain ⟨ws, hw, hs⟩ := Expr.exists_rendersAll items h
      have htext := Renders.enclosed (k := .leftBracket) (l := .rightBracket) (t := "[") (d := ']')
        rfl (fun _ => rfl) rfl (fun _ => rfl) (by decide) hw
      refine ⟨_, ?_, fun _ => .array hs⟩
      simpa [Expr.source] using htext
  | .index object key _, h => by
      obtain ⟨os, how, ho⟩ := object.exists_renders h.1
      obtain ⟨ks, hkw, hk⟩ := key.exists_renders h.2
      have htext := Renders.enclosed (k := .leftBracket) (l := .rightBracket) (t := "[") (d := ']')
        rfl (fun _ => rfl) rfl (fun _ => rfl) (by decide) hkw
      refine ⟨_, ?_, fun _ => .grouped (.index (ho _) (hk _))⟩
      simpa [Expr.source] using (how.append (by simp [isWordChar]) htext).parenthesized
  | .hash pairs _, h => by
      obtain ⟨ws, hw, hs⟩ := Expr.exists_rendersPairs pairs h
      have htext := Renders.enclosed (k := .leftBrace) (l := .rightBrace) (t := "\x7b")
        (d := '\x7d') rfl (fun _ => rfl) rfl (fun _ => rfl) (by decide) hw
      refine ⟨_, ?_, fun _ => .hash hs⟩
      simpa [Expr.source] using htext

theorem Expr.exists_rendersAll : (es : List Expr) → Expr.FaithfulAll es →
    ∃ ws, Renders ws (", ".intercalate (Expr.sources es)).toList ∧ Expr.SpelledList false es ws
  | [], _ => ⟨[], .nil, .nil⟩
  | [e], h => by
      obtain ⟨ws, hw, hs⟩ := e.exists_renders h.1
      refine ⟨ws ++ [], ?_, .cons (hs _) .nil⟩
      simpa [Expr.sources] using hw
  | e :: f :: es, h => by
      obtain ⟨ws, hw, hs⟩ := e.exists_renders h.1
      obtain ⟨us, hu, hus⟩ := Expr.exists_rendersAll (f :: es) h.2
      refine ⟨_, ?_, .cons (hs _) (.of_list hus)⟩
      simpa [Expr.sources] using hw.comma hu

theorem Expr.exists_rendersPairs : (ps : List (Expr × Expr)) → Expr.FaithfulPairs ps →
    ∃ ws, Renders ws (", ".intercalate (Expr.pairSources ps)).toList ∧
      Expr.SpelledPairs false ps ws
  | [], _ => ⟨[], .nil, .nil⟩
  | [(key, value)], h => by
      obtain ⟨ks, hk, hks⟩ := key.exists_renders h.1
      obtain ⟨vs, hv, hvs⟩ := value.exists_renders h.2.1
      refine ⟨_, ?_, .cons (hks _) (hvs _) (.omitted rfl) .nil⟩
      simpa [Expr.pairSources] using hk.pair hv
  | (key, value) :: p :: ps, h => by
      obtain ⟨ks, hk, hks⟩ := key.exists_renders h.1
      obtain ⟨vs, hv, hvs⟩ := value.exists_renders h.2.1
      obtain ⟨us, hu, hus⟩ := Expr.exists_rendersPairs (p :: ps) h.2.2
      refine ⟨_, ?_, .cons (hks _) (hvs _) .written hus⟩
      simpa [Expr.pairSources] using (hk.pair hv).comma hu
end

/-! ## Programs -/

/-- The characters spell the words in front of any others. -/
def Completes (ws : List Word) (cs : List Char) : Prop :=
  ∀ vs rest, Spells vs rest → Spells (ws ++ vs) (cs ++ rest)

namespace Completes

variable {ws vs : List Word} {cs ds : List Char}

theorem nil : Completes [] [] :=
  fun _ _ h => h

theorem append (h : Completes ws cs) (h' : Completes vs ds) : Completes (ws ++ vs) (cs ++ ds) := by
  intro us rest hus
  rw [List.append_assoc, List.append_assoc]
  exact h _ _ (h' us rest hus)

theorem newline (h : Completes ws cs) : Completes ws ('\n' :: cs) :=
  fun vs rest hvs => (h vs rest hvs).blank rfl

/-- Nothing goes on with a semicolon. -/
theorem semicolon (h : Renders ws cs) : Completes (ws ++ [.mark .semicolon]) (cs ++ [';']) := by
  intro vs rest hvs
  have hlast : Spells (.mark .semicolon :: vs) (';' :: rest) :=
    .cons .nil (.mark (k := .semicolon) rfl) (fun _ _ => Bool.false_ne_true) hvs
  simpa using h _ _ (by simp [isWordChar]) hlast

theorem spells (h : Completes ws cs) : Spells ws cs := by
  simpa using h [] [] (.nil .nil)

end Completes

theorem Stmt.exists_completes : (s : Stmt) → s.Faithful →
    ∃ ws, Completes (ws ++ [.mark .semicolon]) s.source.toList ∧ Stmt.Spelled false s ws
  | .bind target value _, h => by
      obtain ⟨ws, hw, hs⟩ := value.exists_renders h.2
      have hblank {k : Kind} {cs : List Char} : ∀ c ∈ (' ' :: cs).head?, ¬(Word.mark k).joins c :=
        fun _ hc => Option.some.inj hc ▸ Word.not_joins_blank _
      have hassign : Renders (.mark .assign :: ws) ("=".toList ++ ' ' :: value.source.toList) :=
        .before (k := .assign) rfl (List.cons_ne_nil _ _) hblank hw.blank
      have hname := (Renders.name h.1).append (by simp [isWordChar]) hassign.blank
      have hlet : Renders (.mark .kwLet :: _) ("let".toList ++ _) :=
        .before rfl (List.cons_ne_nil _ _) hblank hname.blank
      refine ⟨_, ?_, .bind (hs _)⟩
      simpa [Stmt.source] using Completes.semicolon hlet
  | .ret value _, h => by
      obtain ⟨ws, hw, hs⟩ := value.exists_renders h
      have hret : Renders (.mark .kwReturn :: _) ("return".toList ++ _) :=
        .before rfl (List.cons_ne_nil _ _)
          (fun _ hc => Option.some.inj hc ▸ Word.not_joins_blank _) hw.blank
      refine ⟨_, ?_, .ret (hs _)⟩
      simpa [Stmt.source] using Completes.semicolon hret

/-- The statements of a program are spelled in the same words, on one line or on lines of their
own. -/
theorem Program.exists_completes {p : Program} (h : ∀ s ∈ p, s.Faithful) :
    ∃ ws, Completes ws (Program.source p).toList ∧ Completes ws (Program.lines p).toList ∧
      Stmt.SpelledList false p ws := by
  induction p with
  | nil => exact ⟨[], .nil, .nil, .nil⟩
  | cons s p ih =>
      obtain ⟨hs, hp⟩ := List.forall_mem_cons.mp h
      obtain ⟨ws, hw, hspelled⟩ := s.exists_completes hs
      obtain ⟨vs, hsource, hlines, hvs⟩ := ih hp
      refine ⟨_, ?_, ?_, .cons hspelled .written hvs⟩
      · simpa [Program.source, Stmt.joined] using hw.append hsource
      · cases p with
        | nil =>
            cases hvs
            simpa [Program.lines] using hw
        | cons t p => simpa [Program.lines] using hw.append hlines.newline

/-- A program of `let` and `return` statements without strings, conditionals and functions is what
its source is read as, without an error, on one line or on lines of their own. -/
theorem Program.parse_source {p : Program} (h : ∀ s ∈ p, s.Faithful) :
    ((parse (Program.source p)).errors = [] ∧
      Program.erase (parse (Program.source p)).program = Program.erase p) ∧
    ((parse (Program.lines p)).errors = [] ∧
      Program.erase (parse (Program.lines p)).program = Program.erase p) := by
  obtain ⟨ws, hsource, hlines, hs⟩ := Program.exists_completes h
  exact ⟨parse_of_spells hs hsource.spells, parse_of_spells hs hlines.spells⟩

/-- The program `let a_1 = -!f({2: [x, true]})(y)[0]; return 9223372036854775807 - (3 - 4);`. -/
theorem Program.parse_source_two_statements :
    let x : String → Expr := fun name => .ident name .zero
    let n : Int64 → Expr := fun v => .int v .zero
    let hash : Expr := .hash [(n 2, .array [x "x", .bool true .zero] .zero)] .zero
    let call : Expr := .call (.call (x "f") [hash] .zero) [x "y"] .zero
    let value : Expr := .unary .negate (.unary .not (.index call (n 0) .zero) .zero) .zero
    let rest : Expr := .binary .subtract (n 9223372036854775807)
      (.binary .subtract (n 3) (n 4) .zero) .zero
    let p : Program := [.bind ⟨"a_1", .zero⟩ value .zero, .ret rest .zero]
    (∀ s ∈ p, s.Faithful) ∧ Program.source p =
        "let a_1 = (-(!(f(\x7b2:[x, true]\x7d)(y)[0])));return (9223372036854775807 - (3 - 4));" ∧
      (parse (Program.source p)).errors = [] ∧
      Program.erase (parse (Program.source p)).program = Program.erase p ∧
      Program.erase (parse (Program.lines p)).program = Program.erase p := by
  intro x n hash call value rest p
  have hname {name : String} (c : Char) (cs : List Char) (hn : name = String.ofList (c :: cs))
      (hc : isWordStart c) (hcs : cs.all isWordChar) (hkey : Kind.keyword? name = none) :
      LegalName name :=
    ⟨c, cs, hn, hc, List.all_eq_true.mp hcs, hkey⟩
  have hx : LegalName "x" := hname 'x' [] rfl rfl rfl rfl
  have hy : LegalName "y" := hname 'y' [] rfl rfl rfl rfl
  have hf : LegalName "f" := hname 'f' [] rfl rfl rfl rfl
  have ha : LegalName "a_1" := hname 'a' ['_', '1'] rfl rfl rfl rfl
  have hn {v : Int64} (hv : 0 ≤ v.toInt) : (n v).Faithful := hv
  have hhash : hash.Faithful := ⟨hn (by decide), ⟨hx, trivial, trivial⟩, trivial⟩
  have hcall : call.Faithful := ⟨⟨hf, hhash, trivial⟩, hy, trivial⟩
  have hvalue : value.Faithful := ⟨hcall, hn (by decide)⟩
  have hrest : rest.Faithful := ⟨hn (by decide), hn (by decide), hn (by decide)⟩
  have h : ∀ s ∈ p, s.Faithful :=
    List.forall_mem_cons.mpr ⟨⟨ha, hvalue⟩, List.forall_mem_singleton.mpr hrest⟩
  obtain ⟨⟨herrors, hsource⟩, -, hlines⟩ := Program.parse_source h
  exact ⟨h, by decide +kernel, herrors, hsource, hlines⟩

end Monkey
