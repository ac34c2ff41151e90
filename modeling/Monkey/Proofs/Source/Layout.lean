import Monkey.Parse.Recovery
import Monkey.Proofs.Eval.Erasure
import Monkey.Proofs.Parse.Alike

/-!
# Layout

Where the words of a source stand, what is between them and how the characters of a string are
spelled makes no difference to what the source means.
-/

namespace Monkey

/-- Sources with the same kinds and lexemes of tokens and the same lexical errors are parsed to the
same tree with the same errors, and the two programs write the same and end with the same value or
fault, all but for places. -/
theorem parse_of_same_items {a b : String}
    (h : (scan a).map Item.erase = (scan b).map Item.erase) :
    (parse a).program.erase = (parse b).program.erase ∧
      (parse a).errors.map SyntaxError.erase = (parse b).errors.map SyntaxError.erase ∧
      ∀ (limit : Nat) (env : Env) (w : World),
        let x := Program.run limit env (parse a).program w
        let y := Program.run limit env (parse b).program w
        x.2.output = y.2.output ∧ x.2.erase = y.2.erase ∧
          x.1.erase = y.1.erase ∧ x.1.text = y.1.text ∧
          ∀ f, x.1 = .signal (.fault f) → ∃ g, y.1 = .signal (.fault g) ∧ g.cause = f.cause := by
  obtain ⟨hprogram, herrors⟩ := parseStream_erase (s := .ofText a) (t := .ofText b) h
  refine ⟨hprogram, herrors, fun limit env w => ?_⟩
  intro x y
  obtain ⟨hvalue, hworld⟩ := Program.run_alike limit env hprogram (rfl : w.erase.prepend "" = _)
  rw [World.prepend_empty, World.prepend_empty] at hworld
  exact ⟨World.output_eq_of_erase_eq hworld, hworld, hvalue, Value.text_eq_of_erase_eq hvalue,
    fun f => Value.fault_of_erase_eq hvalue⟩

/-- A comment, blanks and line feeds between the words, and a tab spelled in two ways. -/
theorem parse_of_same_items_commented :
    let a := "let s=\"a\\tb\";puts(s);s(1)"
    let b := "let s // the text\n  = \"a\tb\" ;\n puts ( s ) ; s(1)"
    (scan a).map Item.erase = (scan b).map Item.erase ∧ scan a ≠ scan b ∧
      (parse a).program.erase = (parse b).program.erase ∧
      ∀ (limit : Nat) (env : Env) (w : World),
        (Program.run limit env (parse a).program w).1.text =
          (Program.run limit env (parse b).program w).1.text := by
  intro a b
  have h : (scan a).map Item.erase = (scan b).map Item.erase := by decide +kernel
  obtain ⟨hprogram, -, hrun⟩ := parse_of_same_items h
  exact ⟨h, by decide +kernel, hprogram, fun limit env w => (hrun limit env w).2.2.2.1⟩

end Monkey
