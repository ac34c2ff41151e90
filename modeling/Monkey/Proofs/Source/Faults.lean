import Monkey.Proofs.Eval.Origin
import Monkey.Proofs.Source.Nesting
import Monkey.Proofs.Token.LineNumbers
import Monkey.Value.Same

/-!
# Faults in their text

A fault that ends the program of a text is blamed on a node of this program. So its span covers
whole characters of the text, and the line that is shown for it is a line of the text.
-/

namespace Monkey

/-- The span of the fault covers whole characters of the text, and its line is one of the text. -/
structure Fault.Shown (text : String) (f : Fault) : Prop where
  within : f.span.Within text
  line_pos : 1 ≤ (LineTable.ofText text).line f.span.start
  line_le : (LineTable.ofText text).line f.span.start ≤ (LineTable.ofText text).ends.length

theorem Fault.shown_of_within {text : String} {f : Fault} (h : f.span.Within text) :
    f.Shown text := by
  have hlt : f.span.start.toNat < text.utf8ByteSize :=
    Nat.lt_of_lt_of_le (Nat.lt_add_of_pos_right h.nonempty) h.stop.le_utf8ByteSize
  exact {
    within := h
    line_pos := LineTable.line_pos _ _
    line_le := LineTable.line_le_length hlt }

theorem Value.eq_of_same_fault {v : Value} {f : Fault} (h : v.same (.signal (.fault f)) = true) :
    v = .signal (.fault f) := by
  cases v with
  | signal s =>
      cases s with
      | fault g => simpa [Value.same, Signal.same] using h
      | ret w => simp [Value.same, Signal.same] at h
  | _ => simp [Value.same] at h

/-- Where the program of a text ends with a fault, there is a node of it that can raise this fault
and has its span. -/
theorem fault_blames_node {text : String} (hsize : text.utf8ByteSize < UInt32.size) (limit : Nat)
    {f : Fault} (h : (Program.run limit World.empty.newEnv.1 (parse text).program
      World.empty.newEnv.2).1 = .signal (.fault f)) :
    Program.Blames (parse text).program f.cause f.span ∧ f.Shown text := by
  have hblames := Program.blames_of_run .newEnv limit _ h
  obtain ⟨t, ht, hspan⟩ := hblames.node
  have hbounded := (laid_of_hasNode hsize ht).bounded
  rw [hspan] at hbounded
  exact ⟨hblames, Fault.shown_of_within hbounded.within⟩

/-- A division by zero in a function that is called on a later line. -/
theorem fault_blames_node_in_function :
    let text := "let f = fn(x) \x7b\n  [x / 0]\n\x7d;\nf(1);"
    let f : Fault := ⟨.divisionByZero, ⟨19, 5⟩⟩
    text.utf8ByteSize < UInt32.size ∧
      (Program.run 3 World.empty.newEnv.1 (parse text).program World.empty.newEnv.2).1 =
        .signal (.fault f) ∧
      (Program.Blames (parse text).program f.cause f.span ∧ f.Shown text) ∧
      (LineTable.ofText text).line f.span.start = 2 := by
  intro text f
  have hsize : text.utf8ByteSize < UInt32.size := by decide
  have hrun : (Program.run 3 World.empty.newEnv.1 (parse text).program World.empty.newEnv.2).1 =
      .signal (.fault f) := Value.eq_of_same_fault (by decide +kernel)
  exact ⟨hsize, hrun, fault_blames_node hsize 3 hrun, by decide +kernel⟩

end Monkey
