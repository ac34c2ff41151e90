import Monkey.Text.Blank
import Monkey.Token

/-!
# From text to tokens

The text is read one character at a time. Between two characters the reader is in a mode: between
items, in a comment, or inside an item that has begun. A character extends what the mode has read,
or it ends the item and begins the next one, so every item is as long as it can be.
-/

namespace Monkey

open Text (isBlank)

namespace Scan

/-- What has been read of the item at hand: where it starts and, last character first, what it says.
-/
inductive Mode where
  /-- Between two items. -/
  | gap
  /-- After two slashes, until the line ends. -/
  | comment
  /-- In an identifier or a keyword. -/
  | word (start : Nat) (chars : List Char)
  | digits (start : Nat) (chars : List Char)
  /-- After a character that is a token, and half of a longer one if `=` follows. -/
  | half (start : Nat) (c : Char) (single double : Kind)
  /-- After a slash, which may begin a comment. -/
  | slash (start : Nat)
  /-- In a string; `bad` is the first escape that does not exist. -/
  | quoted (start : Nat) (chars : List Char) (bad : Option Char)
  /-- In a string, after a backslash. -/
  | escape (start : Nat) (chars : List Char) (bad : Option Char)
deriving DecidableEq

/-! ## Classes of characters -/

def isWordStart (c : Char) : Bool :=
  c.isAlpha || c = '_'

def isWordChar (c : Char) : Bool :=
  c.isAlphanum || c = '_'

/-- The kind of a character that is a token whatever follows it. -/
def single? (c : Char) : Option Kind :=
  match c with
  | '(' => some .leftParen
  | ')' => some .rightParen
  | '\x7b' => some .leftBrace
  | '\x7d' => some .rightBrace
  | '[' => some .leftBracket
  | ']' => some .rightBracket
  | ',' => some .comma
  | ';' => some .semicolon
  | ':' => some .colon
  | '+' => some .plus
  | '-' => some .minus
  | '*' => some .asterisk
  | _ => none

/-- The kinds of a character alone and of that character with `=` after it. -/
def half? (c : Char) : Option (Kind × Kind) :=
  match c with
  | '=' => some (.assign, .equal)
  | '!' => some (.bang, .notEqual)
  | '<' => some (.lessThan, .lessEqual)
  | '>' => some (.greaterThan, .greaterEqual)
  | _ => none

/-- The character that a letter after a backslash stands for. -/
def unescape? (c : Char) : Option Char :=
  match c with
  | 'n' => some '\n'
  | 't' => some '\t'
  | 'r' => some '\r'
  | '"' => some '"'
  | '\\' => some '\\'
  | _ => none

/-! ## One character -/

def token (kind : Kind) (lexeme : List Char) (start stop : Nat) : Item :=
  .ok ⟨kind, String.ofList lexeme, .ofBytes start stop⟩

def error (cause : LexicalCause) (start stop : Nat) : Item :=
  .error ⟨cause, .ofBytes start stop⟩

/-- The item that a mode amounts to if it ends at the offset `stop`. -/
def Mode.item? (stop : Nat) : Mode → Option Item
  | gap | comment => none
  | word start cs =>
    some (token (.ofWord (String.ofList cs.reverse)) cs.reverse start stop)
  | digits start cs => some (token .integer cs.reverse start stop)
  | half start c single _ => some (token single [c] start stop)
  | slash start => some (token .slash ['/'] start stop)
  | quoted start _ _ | escape start _ _ => some (error .unclosedString start stop)

/-- What the character `c` at the offset `pos` makes of a mode that it extends: an item if it
completes one, and the next mode. None if the mode ends before `c`. -/
def Mode.extend? (pos : Nat) (c : Char) : Mode → Option (Option Item × Mode)
  | gap => none
  | comment => some (none, if c = '\n' then gap else comment)
  | word start cs => if isWordChar c then some (none, word start (c :: cs)) else none
  | digits start cs => if c.isDigit then some (none, digits start (c :: cs)) else none
  | half start d _ double =>
    if c = '=' then some (some (token double [d, c] start (pos + c.utf8Size)), gap) else none
  | slash _ => if c = '/' then some (none, comment) else none
  | quoted start cs bad =>
    if c = '"' then
      let stop := pos + c.utf8Size
      match bad with
      | some b => some (some (error (.unknownEscape b) start stop), gap)
      | none => some (some (token .string cs.reverse start stop), gap)
    else if c = '\\' then some (none, escape start cs bad)
    else some (none, quoted start (c :: cs) bad)
  | escape start cs bad =>
    match unescape? c with
    | some d => some (none, quoted start (d :: cs) bad)
    | none => some (none, quoted start cs (bad <|> some c))

/-- What the character `c` at the offset `pos` begins: an item if it is one by itself, and the next
mode. -/
def begin (pos : Nat) (c : Char) : Option Item × Mode :=
  match single? c with
  | some kind => (some (token kind [c] pos (pos + c.utf8Size)), .gap)
  | none =>
    match half? c with
    | some (single, double) => (none, .half pos c single double)
    | none =>
      if c = '/' then (none, .slash pos)
      else if c = '"' then (none, .quoted pos [] none)
      else if c.isDigit then (none, .digits pos [c])
      else if isWordStart c then (none, .word pos [c])
      else if isBlank c then (none, .gap)
      else (some (error (.unrecognized c) pos (pos + c.utf8Size)), .gap)

/-- The items that the character `c` at the offset `pos` completes, and the next mode. -/
def Mode.step (pos : Nat) (c : Char) (m : Mode) : List Item × Mode :=
  match m.extend? pos c with
  | some (item, next) => (item.toList, next)
  | none => ((m.item? pos).toList ++ (begin pos c).1.toList, (begin pos c).2)

end Scan

/-! ## A whole text -/

/-- A text read in part: the offset reached, the mode, and the items completed. -/
structure Scan where
  pos : Nat
  mode : Scan.Mode
  items : Array Item

namespace Scan

def start : Scan :=
  ⟨0, .gap, #[]⟩

def feed (s : Scan) (c : Char) : Scan :=
  let (items, next) := s.mode.step s.pos c
  ⟨s.pos + c.utf8Size, next, s.items ++ items⟩

/-- All items, once the text has ended. -/
def finish (s : Scan) : List Item :=
  s.items.toList ++ (s.mode.item? s.pos).toList

end Scan

/-- The items of a text, in order. -/
def scan (text : String) : List Item :=
  (text.toList.foldl Scan.feed Scan.start).finish

/-- The items of a text, and the end of the source just after it. -/
def TokenStream.ofText (text : String) : TokenStream :=
  ⟨scan text, .ofBytes text.utf8ByteSize text.utf8ByteSize⟩

end Monkey
