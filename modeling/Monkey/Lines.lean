/-!
# Line numbers

The lines of a text are numbered from 1 and end with a line feed. The table of a text has the bytes
of each line, one line after the other, and the line of an offset is looked up there by halving.
-/

namespace Monkey

/-- The bytes of a line, from number `start` up to, not including, number `stop`. -/
structure LineRange where
  start : Nat
  stop : Nat

/-- Where the line is, seen from an offset: `lt` if it is in front of it, `gt` if it is behind. -/
def LineRange.side (r : LineRange) (offset : Nat) : Ordering :=
  if offset < r.start then .gt
  else if r.stop ≤ offset then .lt
  else .eq

/-- The lines of a text, in order. -/
structure LineTable where
  ranges : Array LineRange

namespace LineTable

/-- The lines of which the bytes from number `pos` on are left, where the line at hand starts at
`start`, and `isOpen` says whether it has been begun. A last line without a line feed ends one past
the text, so that the end of the text is on it. -/
def rangesFrom (start pos : Nat) (isOpen : Bool) : List UInt8 → List LineRange
  | [] => if isOpen then [⟨start, pos + 1⟩] else []
  | b :: bs =>
    if b = 10 then ⟨start, pos + 1⟩ :: rangesFrom (pos + 1) (pos + 1) false bs
    else rangesFrom start (pos + 1) true bs

/-- The empty text has one line. -/
def ofText (text : String) : LineTable :=
  ⟨(rangesFrom 0 0 text.isEmpty text.toUTF8.data.toList).toArray⟩

/-- The line of every offset behind the last line. -/
def maxLine (t : LineTable) : Nat :=
  t.ranges.size + 1

/-- The place in the table of the line that an offset is on, if it is one of those from place `lo`
up to, not including, place `hi`. -/
def search (t : LineTable) (offset lo hi : Nat) : Option Nat :=
  if lo < hi then
    let mid := lo + (hi - lo) / 2
    match t.ranges[mid]? with
    | none => none
    | some r =>
      match r.side offset with
      | .gt => t.search offset lo mid
      | .lt => t.search offset (mid + 1) hi
      | .eq => some mid
  else none
termination_by hi - lo

/-- The line of an offset. -/
def line (t : LineTable) (offset : UInt32) : Nat :=
  match t.search offset.toNat 0 t.ranges.size with
  | some i => i + 1
  | none => t.maxLine

end LineTable

end Monkey
