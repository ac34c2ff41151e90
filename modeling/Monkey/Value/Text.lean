import Monkey.Syntax.Source
import Monkey.Value

/-!
# Values as text

The text that a program prints for a value.
-/

namespace Monkey

def Closure.text (c : Closure) : String :=
  "fn(" ++ ", ".intercalate (c.params.map (·.name)) ++ ") \x7b\n" ++ c.body.source ++ "\n\x7d"

mutual
def Value.text : Value → String
  | .int v => Text.ofInt64 v
  | .bool v => toString v
  | .str v => v
  | .null => "null"
  | .array items => "[" ++ ", ".intercalate (Value.texts items) ++ "]"
  | .hash entries => "\x7b" ++ ", ".intercalate (Value.entryTexts entries) ++ "\x7d"
  | .closure c => c.text
  | .builtin _ => "builtin function"
  | .signal s => s.text

def Value.texts : List Value → List String
  | [] => []
  | v :: vs => v.text :: Value.texts vs

def Value.entryTexts : List (HashKey × Value) → List String
  | [] => []
  | (k, v) :: es => (k.text ++ ": " ++ v.text) :: Value.entryTexts es

def Signal.text : Signal → String
  | .ret v => v.text
  | .fault f => "ERROR: " ++ f.cause.message
end

end Monkey
