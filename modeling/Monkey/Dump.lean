/-!
# Dumps

A dump shows how a datum is built up: its constructors, and their fields by name or by place. It is
written on one line, or with every part on a line of its own.
-/

namespace Monkey

inductive Dump where
  /-- A datum without parts. -/
  | atom (text : String)
  /-- Named fields. -/
  | record (name : String) (fields : List (String × Dump))
  /-- Named fields, not all of which are shown. -/
  | abridged (name : String) (fields : List (String × Dump))
  /-- Fields by place; the name may be empty. -/
  | tuple (name : String) (items : List Dump)
  | list (items : List Dump)
  | map (entries : List (Dump × Dump))

namespace Dump

/-! ## On one line -/

mutual
def compact : Dump → String
  | atom text => text
  | record name fields => name ++ " \x7b " ++ ", ".intercalate (compactFields fields) ++ " \x7d"
  | abridged name fields =>
    name ++ " \x7b " ++ ", ".intercalate (compactFields fields ++ [".."]) ++ " \x7d"
  | tuple name items => name ++ "(" ++ ", ".intercalate (compactAll items) ++ ")"
  | list items => "[" ++ ", ".intercalate (compactAll items) ++ "]"
  | map entries => "\x7b" ++ ", ".intercalate (compactEntries entries) ++ "\x7d"

def compactFields : List (String × Dump) → List String
  | [] => []
  | (name, d) :: rest => (name ++ ": " ++ d.compact) :: compactFields rest

def compactAll : List Dump → List String
  | [] => []
  | d :: rest => d.compact :: compactAll rest

def compactEntries : List (Dump × Dump) → List String
  | [] => []
  | (k, d) :: rest => (k.compact ++ ": " ++ d.compact) :: compactEntries rest
end

/-! ## On many lines -/

/-- The parts `lines`, each on a line of its own one step further in than `margin`; nothing at all
if there are none. -/
def indented (margin : String) (lines : List String) : String :=
  if lines.isEmpty then ""
  else "\n" ++ String.join (lines.map fun l => margin ++ "    " ++ l ++ "\n") ++ margin

mutual
/-- The dump on lines of its own, but for the first line's beginning, `margin` before each. -/
def expanded (margin : String) : Dump → String
  | atom text => text
  | record name fields =>
    name ++ " \x7b" ++ indented margin (expandedFields (margin ++ "    ") fields) ++ "\x7d"
  | abridged name fields =>
    name ++ " \x7b" ++
      indented margin (expandedFields (margin ++ "    ") fields ++ [".."]) ++ "\x7d"
  | tuple name items => name ++ "(" ++ indented margin (expandedAll (margin ++ "    ") items) ++ ")"
  | list items => "[" ++ indented margin (expandedAll (margin ++ "    ") items) ++ "]"
  | map entries => "\x7b" ++ indented margin (expandedEntries (margin ++ "    ") entries) ++ "\x7d"

def expandedFields (margin : String) : List (String × Dump) → List String
  | [] => []
  | (name, d) :: rest => (name ++ ": " ++ d.expanded margin ++ ",") :: expandedFields margin rest

def expandedAll (margin : String) : List Dump → List String
  | [] => []
  | d :: rest => (d.expanded margin ++ ",") :: expandedAll margin rest

def expandedEntries (margin : String) : List (Dump × Dump) → List String
  | [] => []
  | (k, d) :: rest =>
    (k.expanded margin ++ ": " ++ d.expanded margin ++ ",") :: expandedEntries margin rest
end

end Dump

end Monkey
