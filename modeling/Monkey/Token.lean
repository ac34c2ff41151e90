import Monkey.Lines
import Monkey.Span
import Monkey.Text.Quoted

/-!
# Tokens

The words of the language, and the items that a source text is cut into: a token, or a lexical error
where no token can be read.
-/

namespace Monkey

/-! ## Kinds -/

inductive Kind where
  | leftParen | rightParen
  | leftBrace | rightBrace
  | leftBracket | rightBracket
  | comma | semicolon | colon
  | assign | plus | minus | bang | asterisk | slash
  | lessThan | lessEqual | greaterThan | greaterEqual
  | equal | notEqual
  | integer | string | ident
  | kwFn | kwLet | kwTrue | kwFalse | kwIf | kwElse | kwReturn
  /-- The end of the source. -/
  | eof
deriving DecidableEq

namespace Kind

def all : List Kind :=
  [leftParen, rightParen, leftBrace, rightBrace, leftBracket, rightBracket, comma, semicolon, colon,
    assign, plus, minus, bang, asterisk, slash, lessThan, lessEqual, greaterThan, greaterEqual,
    equal, notEqual, integer, string, ident, kwFn, kwLet, kwTrue, kwFalse, kwIf, kwElse, kwReturn,
    eof]

/-- The kind as messages show it: punctuation by its text, all else by a word in capitals. -/
def symbol : Kind → String
  | leftParen => "("
  | rightParen => ")"
  | leftBrace => "\x7b"
  | rightBrace => "\x7d"
  | leftBracket => "["
  | rightBracket => "]"
  | comma => ","
  | semicolon => ";"
  | colon => ":"
  | assign => "="
  | plus => "+"
  | minus => "-"
  | bang => "!"
  | asterisk => "*"
  | slash => "/"
  | lessThan => "<"
  | lessEqual => "<="
  | greaterThan => ">"
  | greaterEqual => ">="
  | equal => "=="
  | notEqual => "!="
  | integer => "INT"
  | string => "STRING"
  | ident => "IDENT"
  | kwFn => "FUNCTION"
  | kwLet => "LET"
  | kwTrue => "TRUE"
  | kwFalse => "FALSE"
  | kwIf => "IF"
  | kwElse => "ELSE"
  | kwReturn => "RETURN"
  | eof => "EOF"

/-- The kind's name. -/
def name : Kind → String
  | leftParen => "LeftParenthesis"
  | rightParen => "RightParenthesis"
  | leftBrace => "LeftBrace"
  | rightBrace => "RightBrace"
  | leftBracket => "LeftBracket"
  | rightBracket => "RightBracket"
  | comma => "Comma"
  | semicolon => "Semicolon"
  | colon => "Colon"
  | assign => "Assign"
  | plus => "Plus"
  | minus => "Minus"
  | bang => "Bang"
  | asterisk => "Asterisk"
  | slash => "Slash"
  | lessThan => "LessThan"
  | lessEqual => "LessThanEqual"
  | greaterThan => "GreaterThan"
  | greaterEqual => "GreaterThanEqual"
  | equal => "Equal"
  | notEqual => "NotEqual"
  | integer => "Integer"
  | string => "String"
  | ident => "Ident"
  | kwFn => "KeywordFn"
  | kwLet => "KeywordLet"
  | kwTrue => "KeywordTrue"
  | kwFalse => "KeywordFalse"
  | kwIf => "KeywordIf"
  | kwElse => "KeywordElse"
  | kwReturn => "KeywordReturn"
  | eof => "Eof"

/-- The kind of a keyword; none for any other word. -/
def keyword? (word : String) : Option Kind :=
  if word = "fn" then some kwFn
  else if word = "let" then some kwLet
  else if word = "true" then some kwTrue
  else if word = "false" then some kwFalse
  else if word = "if" then some kwIf
  else if word = "else" then some kwElse
  else if word = "return" then some kwReturn
  else none

/-- A word is a keyword or an identifier. -/
def ofWord (word : String) : Kind :=
  (keyword? word).getD ident

theorem mem_all (k : Kind) : k ∈ all := by
  cases k <;> decide

end Kind

/-! ## Tokens -/

/-- The lexeme is the text of the token; for a string, what the text means, without quotes and
escapes. -/
structure Token where
  kind : Kind
  lexeme : String
  span : Span
deriving DecidableEq

namespace Token

def isEof (t : Token) : Bool :=
  t.kind = .eof

/-- The end of a source. -/
def eof (span : Span) : Token :=
  ⟨.eof, "", span⟩

@[simp] theorem isEof_eof (span : Span) : (eof span).isEof := rfl

/-- The token on a line of its own, after its line number. -/
def listing (lines : LineTable) (t : Token) : String :=
  "(" ++ toString (lines.line t.span.start) ++ ") " ++
    match t.kind with
    | .ident | .integer => t.kind.symbol ++ " " ++ t.lexeme
    | .string => t.kind.symbol ++ " " ++ Text.quoteString t.lexeme
    | k => k.symbol

end Token

/-! ## Lexical errors -/

inductive LexicalCause where
  | unrecognized (c : Char)
  | unclosedString
  | unknownEscape (c : Char)
deriving DecidableEq

structure LexicalError where
  cause : LexicalCause
  span : Span
deriving DecidableEq

namespace LexicalCause

def code : LexicalCause → String
  | unrecognized _ => "LX001"
  | unclosedString => "LX002"
  | unknownEscape _ => "LX003"

def message : LexicalCause → String
  | unrecognized c => "unrecognized character " ++ Text.quoteChar c
  | unclosedString => "unterminated string literal"
  | unknownEscape c => "unknown escape sequence \\" ++ c.toString

end LexicalCause

/-- The error on a line of its own, in place of the token that could not be read. -/
def LexicalError.listing (lines : LineTable) (e : LexicalError) : String :=
  "(" ++ toString (lines.line e.span.start) ++ ") ILLEGAL " ++
    match e.cause with
    | .unrecognized c => c.toString
    | .unclosedString => "unterminated string"
    | .unknownEscape c => "escape \\" ++ c.toString

/-! ## Items -/

abbrev Item := Except LexicalError Token

/-- What a source is cut into: items, and then the end, which comes for ever. -/
structure TokenStream where
  items : List Item
  /-- The span of the end. -/
  stop : Span

namespace TokenStream

/-- The token that follows the items. -/
def final (s : TokenStream) : Token :=
  .eof s.stop

/-- The next item, and the stream after it. At the end the last token comes again and again. -/
def next (s : TokenStream) : Item × TokenStream :=
  match s.items with
  | [] => (.ok s.final, s)
  | i :: is => (i, { s with items := is })

/-- The answer to the call of `next` with this number, counted from zero. -/
def answer (s : TokenStream) : Nat → Item
  | 0 => s.next.1
  | k + 1 => s.next.2.answer k

theorem answer_eq (s : TokenStream) (k : Nat) : s.answer k = s.items.getD k (.ok s.final) := by
  induction k generalizing s with
  | zero => rcases s with ⟨_ | _, _⟩ <;> rfl
  | succ k ih =>
      rw [answer, ih]
      rcases s with ⟨_ | _, _⟩ <;> rfl

end TokenStream

end Monkey
