import Manpage.Text.Basic

/-!
# Tokens

Man-page markup is read as a sequence of tokens. A token keeps the characters that it was read
from, its place in the source, and whether it is the first of its line; that last mark is what
delimits lines, since no token stands for a line end.

## Main definitions

* `Manpage.TokenKind` — the classes of tokens.
* `Manpage.TokenKind.name` — their names in traces, dumps and messages.
* `Manpage.Token` — a token.
-/

namespace Manpage

/-- The classes of tokens. -/
inductive TokenKind where
  /-- the first chunk of a line that begins with a point -/
  | macroName
  /-- a line of blanks only -/
  | emptyLine
  /-- a run of one repeated blank -/
  | blank
  /-- plain characters -/
  | word
  /-- a double quote -/
  | quote
  /-- the backslash that begins an escape -/
  | backslash
  /-- the character after a backslash -/
  | command
  /-- the argument of an escape -/
  | argument
  /-- the bracket that opens a bracketed argument -/
  | openBracket
  /-- the bracket that closes one -/
  | closeBracket
  /-- the parenthesis before a two-character argument -/
  | openParen
deriving DecidableEq

namespace TokenKind

/-- The name of a class in traces, dumps and messages. -/
def name : TokenKind → Text
  | macroName => "MACRO"
  | emptyLine => "EMPTY_LINE"
  | blank => "WHITESPACE"
  | word => "TEXT_WORD"
  | quote => "DOUBLE_QUOTE"
  | backslash => "BACKSLASH"
  | command => "ESCAPE_COMMAND"
  | argument => "COMMAND_ARG"
  | openBracket => "ARG_OPEN_BRACKET"
  | closeBracket => "ARG_CLOSE_BRACKET"
  | openParen => "ARG_OPEN_PAREN"

/-- Every class, in the order of the declaration. -/
def all : List TokenKind :=
  [macroName, emptyLine, blank, word, quote, backslash, command, argument, openBracket,
    closeBracket, openParen]

/-- The class of a given name. -/
def ofName? (t : Text) : Option TokenKind :=
  all.find? (·.name == t)

/-- The name of a class leads back to the class, so that no two classes share a name. -/
theorem ofName?_name (k : TokenKind) : ofName? k.name = some k := by
  cases k <;> decide

/-- The classes that occur inside an escape only. -/
def isEscapePart : TokenKind → Bool
  | argument | openBracket | closeBracket | openParen => true
  | _ => false

end TokenKind

/-- A token: its class, the characters it was read from, whether it is the first of its line, and
its place, lines and columns counted from one. -/
structure Token where
  kind : TokenKind
  value : Text
  startsLine : Bool
  line : Int
  column : Int
deriving DecidableEq

end Manpage
