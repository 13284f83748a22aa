import Manpage.Text.Basic

/-!
# Escapes

A backslash and the character after it, the command, form an escape. The command decides both
what may follow it and what the escape means, so one classification serves reading the source and
interpreting it.

## Main definitions

* `Manpage.Escape` — the kinds of escapes, and `Manpage.Escape.ofCommand`, the kind of a command.
* `Manpage.FontName` — the fonts that a font escape can select.
* `Manpage.specialCharacter?` — the characters that have a name.
-/

namespace Manpage

/-- The kinds of escapes. -/
inductive Escape where
  /-- selects a font, by an argument -/
  | font
  /-- colour or point size: takes an argument and shows nothing -/
  | ignored
  /-- inserts a named string, by an argument -/
  | string
  /-- a character by its name, of two characters or between brackets -/
  | special (bracketed : Bool)
  /-- stands for a text -/
  | literal (text : Text)
  /-- begins a comment that runs to the end of the line -/
  | comment
  /-- any other command -/
  | unsupported
deriving DecidableEq

/-- The kind of escape that a command begins. -/
def Escape.ofCommand : Text → Escape
  | ['f'] => font
  | ['m'] => ignored
  | ['s'] => ignored
  | ['*'] => string
  | ['('] => special false
  | ['['] => special true
  | ['-'] => literal ['-']
  | ['e'] => literal ['\\']
  | ['\\'] => literal ['\\']
  | ['"'] => comment
  | ['#'] => comment
  | _ => unsupported

/-- The fonts that a font escape can select. -/
inductive FontName where
  | bold
  | italic
  | roman
  | previous
deriving DecidableEq

/-- The font of a given one-letter name. -/
def FontName.ofName? : Text → Option FontName
  | ['B'] => some bold
  | ['I'] => some italic
  | ['R'] => some roman
  | ['P'] => some previous
  | _ => none

/-- The characters that have a name; of these, only the closing quote. -/
def specialCharacter? : Text → Option Text
  | ['c', 'q'] => some ['\'']
  | _ => none

end Manpage
