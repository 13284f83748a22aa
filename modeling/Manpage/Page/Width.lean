import Manpage.Text.Integer

/-!
# Line widths

The width of lines follows from the number of columns of the terminal: a few columns at the right
are left free, and a narrow terminal counts as one of eighty columns.

## Main definitions

* `Manpage.lineWidth` — the line width for a number of columns.
* `Manpage.terminalColumns` — the number of columns that the environment gives.
-/

namespace Manpage

/-- The number of columns that is taken where none is known, and the least that counts. -/
def defaultColumns : Int :=
  80

/-- The columns left free at the right. -/
def rightMargin : Int :=
  8

/-- The line width for a number of columns. -/
def lineWidth (columns : Int) : Int :=
  max columns defaultColumns - rightMargin

/-- The number of columns that the setting for it gives, if it gives a positive one. The size of a
terminal on the standard output, which would be asked for without such a setting, is left out: here
there is none, as where the output is a file or a pipe. -/
def terminalColumns (setting : Option Text) : Int :=
  match setting.bind Text.toInt? with
  | some n => if 0 < n then n else defaultColumns
  | none => defaultColumns

/-- The line width for the terminal. -/
def terminalLineWidth (setting : Option Text) : Int :=
  lineWidth (terminalColumns setting)

end Manpage
