import Manpage.Text.Basic
import Manpage.Text.Printable

/-!
# Quoted texts

A text in messages, traces and dumps stands between quotes, in a form that shows every character.
It is quoted singly unless it holds a single quote and no double one. The quote in use and the
backslash are escaped, tab, line feed and carriage return have short names, and every other
unprintable character is written by its code point in lower-case hexadecimal digits.

## Main definitions

* `Manpage.Text.quoteFor` — the quote that a text stands between.
* `Manpage.Text.escapeChar` — one character inside such quotes.
* `Manpage.Text.quoted` — the quoted text.
-/

namespace Manpage.Text

/-- The hexadecimal numeral of a number, filled with zeros up to a width. -/
def hex (width n : Nat) : Text :=
  let digits := Nat.toDigits 16 n
  List.replicate (width - digits.length) '0' ++ digits

/-- The quote that a text stands between: a double one exactly where that spares an escape. -/
def quoteFor (t : Text) : Char :=
  if t.contains '\'' && !t.contains '"' then '"' else '\''

/-- One character as it stands between two quotes of the given kind. -/
def escapeChar (quote c : Char) : Text :=
  if c == quote || c == '\\' then ['\\', c]
  else if c == '\t' then ['\\', 't']
  else if c == '\n' then ['\\', 'n']
  else if c == '\r' then ['\\', 'r']
  else if isPrintable c then [c]
  else if c.toNat < 0x100 then '\\' :: 'x' :: hex 2 c.toNat
  else if c.toNat < 0x10000 then '\\' :: 'u' :: hex 4 c.toNat
  else '\\' :: 'U' :: hex 8 c.toNat

/-- The text between quotes, every character of it shown. -/
def quoted (t : Text) : Text :=
  let quote := quoteFor t
  quote :: t.flatMap (escapeChar quote) ++ [quote]

end Manpage.Text
