import Manpage.Text.Quoted
import Manpage.Token.Basic

/-!
# Tokens in print

A token is shown in two ways: as an entry of the trace of consumed tokens, where each source line
has a line of its own, and as a line of a token dump, with its place in front.

## Main definitions

* `Manpage.Token.traceEntry` — a token as an entry of a trace.
* `Manpage.Token.dumpLine` — a token as a line of a dump.
* `Manpage.Token.dump` — the dump of a list of tokens.
-/

namespace Manpage.Token

/-- A token as an entry of a trace: its class and quoted value, on a new line where it starts
one. -/
def traceEntry (t : Token) : Text :=
  (if t.startsLine then ['\n'] else []) ++ t.kind.name ++ '(' :: t.value.quoted ++ [')', ' ']

/-- A token as a line of a dump: line, column, a mark where it starts a line, class and quoted
value. The program refuses to write a position of more than 4300 decimal digits, which no token of a
source has; here every position is written. -/
def dumpLine (t : Token) : Text :=
  (Text.ofInt t.line).padLeft 4 ++ ':' :: (Text.ofInt t.column).padRight 3
    ++ [' ', if t.startsLine then '^' else ' ', ' '] ++ t.kind.name.padRight 17
    ++ ' ' :: t.value.quoted ++ ['\n']

/-- The dump of a list of tokens, one line for each. -/
def dump (ts : List Token) : Text :=
  ts.flatMap dumpLine

end Manpage.Token
