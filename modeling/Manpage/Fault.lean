import Manpage.Text.Quoted
import Manpage.Token.Basic

/-!
# Faults

What stops the interpretation of a token list. A fault is shown as a snippet: its message, the
place, and the source line with the token underlined.

## Main definitions

* `Manpage.Fault` — the causes, with `Manpage.Fault.message` and `Manpage.Fault.token?`.
* `Manpage.snippet` — a message about a token, with the source line.
* `Manpage.Overlong` — why there is no room for a snippet.
* `Manpage.Fault.report` — the snippet of a fault, or what is said where there is no room for one.
-/

namespace Manpage

/-- The causes that stop an interpretation. -/
inductive Fault where
  /-- the tokens of an interpretation were given twice -/
  | alreadyConsumed
  /-- the argument of an escape is missing, and another token or the end is found -/
  | missingArgument (found : Option Token)
  /-- a part of an escape stands outside any escape -/
  | strayPart (token : Token)
  /-- a macro closes more margin scopes than are open -/
  | marginUnderflow (token : Token)
  /-- a numeric argument is too large for a double -/
  | numberOverflow
deriving DecidableEq

namespace Fault

/-- What a fault says. -/
def message : Fault → Text
  | alreadyConsumed => "interpreter has already consumed its tokens"
  | missingArgument none =>
    "expected ".toList ++ TokenKind.argument.name ++ ", found end of input".toList
  | missingArgument (some t) =>
    "expected ".toList ++ TokenKind.argument.name ++ ", found ".toList ++ t.kind.name ++ [' ']
      ++ t.value.quoted
  | strayPart t => "unexpected ".toList ++ t.kind.name ++ " outside an escape".toList
  | marginUnderflow _ => ".RE closes more margin scopes than .RS opened"
  | numberOverflow => "cannot convert float infinity to integer"

/-- The token that a fault is about; none where it is about the end of the tokens. -/
def token? : Fault → Option Token
  | alreadyConsumed => none
  | missingArgument found => found
  | strayPart t => some t
  | marginUnderflow t => some t
  | numberOverflow => none

end Fault

/-! ## Snippets -/

/-- The line of a source with a given number, counted from one; an empty line where the source has
none of that number. -/
def sourceLine (source : Text) (number : Int) : Text :=
  if number < 1 then [] else (source.splitLines[(number - 1).toNat]?).getD []

/-- A message about a token, with the place, the source line and carets under the token; where
there is no token, the place is the end of the input. -/
def snippet (message : Text) (token : Option Token) (source file : Text) : Text :=
  match token with
  | none => "error: ".toList ++ message ++ "\n  --> ".toList ++ file ++ ": at end of input".toList
  | some t =>
    let number := Text.ofInt t.line
    let gutter := Text.spaces (number.length + 1)
    let carets := List.replicate (max 1 t.value.length) '^'
    "error: ".toList ++ message ++ ['\n']
      ++ gutter ++ "--> ".toList ++ file ++ [':'] ++ number ++ [':'] ++ Text.ofInt t.column
      ++ ['\n']
      ++ gutter ++ ['|', '\n']
      ++ number ++ [' ', '|', ' '] ++ sourceLine source t.line ++ ['\n']
      ++ gutter ++ ['|', ' '] ++ Text.spaces (t.column - 1).toNat ++ carets

/-- Why there is no room for a snippet: the place of its token is too far off the line. -/
inductive Overlong where
  /-- further off, to either side, than the characters of a text are counted -/
  | beyondCount
  /-- further to the right than a text can be held -/
  | beyondMemory
deriving DecidableEq

namespace Overlong

/-- What is said of a snippet that there is no room for. -/
def message : Overlong → Text
  | beyondCount => "cannot fit 'int' into an index-sized integer"
  | beyondMemory => []

/-- The number of characters that are counted on either side. -/
def countBound : Int :=
  Nat.pow 2 63

/-- A number of characters that no text has. The program itself sets no such bound: it is one of the
memory of a machine, which ends a program that asks for more. -/
def memoryBound : Int :=
  Nat.pow 2 32

/-- Why there is no room for a snippet about a token, if there is none. Places are counted with a
sign: the least is the negative bound, the greatest is one less than the bound. -/
def ofToken? (t : Token) : Option Overlong :=
  let before := t.column - 1
  if before < -countBound || countBound ≤ before then some beyondCount
  else if memoryBound ≤ before then some beyondMemory
  else none

end Overlong

/-- What is said of a fault in a source that comes from a given file: its snippet, or why there is
no room for one. -/
def Fault.report (f : Fault) (source file : Text) : Text :=
  match f.token?.bind Overlong.ofToken? with
  | some o => o.message
  | none => snippet f.message f.token? source file

end Manpage
