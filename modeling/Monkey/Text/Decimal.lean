/-!
# Decimal numerals

Decimal numerals of the 64-bit signed integers: digits, after at most one sign.
-/

namespace Monkey.Text

/-- The number that a list of digits spells; there must be one digit or more. -/
def natOfDigits? (ds : List Char) : Option Nat :=
  if ds.isEmpty || !ds.all Char.isDigit then none else some (Nat.ofDigitChars 10 ds 0)

/-- The 64-bit integer equal to `i`, if there is one. -/
def int64OfInt? (i : Int) : Option Int64 :=
  if h : Int64.minValue.toInt ≤ i ∧ i ≤ Int64.maxValue.toInt then some (.ofIntLE i h.1 h.2)
  else none

def int64OfChars? : List Char → Option Int64
  | '+' :: ds => natOfDigits? ds >>= fun n => int64OfInt? n
  | '-' :: ds => natOfDigits? ds >>= fun n => int64OfInt? (-n)
  | ds => natOfDigits? ds >>= fun n => int64OfInt? n

/-- The 64-bit integer that a numeral spells; none if it is not a numeral or its number does not
fit. -/
def int64? (text : String) : Option Int64 :=
  int64OfChars? text.toList

/-- The shortest numeral of an integer. -/
def ofInt64 (i : Int64) : String :=
  toString i.toInt

example : int64? "+5" = some 5 ∧ int64? "-" = none ∧ int64? "" = none := by decide

example : int64? "-9223372036854775808" = some Int64.minValue := by decide

example : int64? "9223372036854775808" = none := by decide

end Monkey.Text
