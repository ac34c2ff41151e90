import Monkey.Text.Unprintable

/-!
# Quoted text

A text in double quotes or a character in single quotes, with whatever could be misread spelled out:
the quote and the backslash after a backslash, the five controls that have a letter by it, and every
other unprintable character by its code point in hexadecimal.
-/

namespace Monkey.Text

/-- The spelling of `c` between two marks `mark`. -/
def escape (mark c : Char) : String :=
  if c = '\x00' then "\\0"
  else if c = '\t' then "\\t"
  else if c = '\r' then "\\r"
  else if c = '\n' then "\\n"
  else if c = '\\' || c = mark then String.ofList ['\\', c]
  else if isUnprintable c then
    "\\u\x7b" ++ String.ofList (Nat.toDigits 16 c.toNat) ++ "\x7d"
  else c.toString

def quoteString (text : String) : String :=
  "\"" ++ String.join (text.toList.map (escape '"')) ++ "\""

def quoteChar (c : Char) : String :=
  "'" ++ escape '\'' c ++ "'"

end Monkey.Text
