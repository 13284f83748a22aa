import Manpage.Anomaly
import Manpage.Fault
import Manpage.Section
import Manpage.Style

/-!
# Instructions

The tokens of a source amount to a list of instructions, the program. The instructions say what is
done, in which order, and leave open how the page looks at that point: the same program can be
carried out for any line width and with any part of the output hidden.

## Main definitions

* `Manpage.Instr` — the instructions.
-/

namespace Manpage

/-- The instructions of a program. -/
inductive Instr where
  /-- enters a token into the trace -/
  | consume (t : Token)
  /-- enters a note on a macro without effect into the trace -/
  | note (t : Token)
  /-- records a warning about a token -/
  | warn (anomaly : Anomaly) (t : Token)
  /-- shows a text -/
  | emit (text : Text)
  /-- separates words -/
  | space
  /-- shows a blank between words: as it is where lines are kept, else as a word separator -/
  | blank (text : Text)
  /-- begins a source line: ends the line where lines are kept -/
  | beginLine
  /-- ends a source line: separates words where lines are filled -/
  | endLine
  /-- an empty source line -/
  | emptyLine
  | lineBreak
  | blankLine
  /-- ends a line that is not blank and leaves so many empty ones -/
  | skipLines (count : Nat)
  | openWord
  /-- adds a font until the scope is closed -/
  | openStyle (font : Font)
  /-- begins a tag without indent; the amount, if any, is the indent of its paragraph -/
  | openTag (amount : Option Int)
  /-- closes the innermost word, style or tag -/
  | closeScope
  | setStyle (font : Font) (value : Bool)
  | plainStyle
  | setNoFill (value : Bool)
  | setIndent (amount : Int)
  /-- sets and stores the indent of a paragraph -/
  | paragraphIndent (amount : Option Int)
  | forgetIndent
  /-- opens a margin scope -/
  | openMargin (amount : Option Int)
  /-- closes so many margin scopes, on behalf of a token -/
  | closeMargins (count : Nat) (t : Token)
  | clearMargins
  | sectionMargin
  | enterSection (s : Section)
  /-- stops the interpretation -/
  | fault (cause : Fault)
deriving DecidableEq

end Manpage
