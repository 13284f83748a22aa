import Manpage.Style

/-!
# Macros

A line that begins with a point calls a macro by its name. Three spellings name the paragraph
macro; every other macro has one.

## Main definitions

* `Manpage.Macro` — the macros that have an effect.
* `Manpage.Macro.canonicalName` — the name that an alias stands for.
* `Manpage.Macro.ofName?` — the macro of a name or alias.
-/

namespace Manpage

/-- The macros. -/
inductive Macro where
  /-- the page header, which is not shown -/
  | title
  /-- begins a section -/
  | heading
  /-- begins a subsection -/
  | subheading
  /-- leaves empty lines -/
  | skip
  /-- ends the line -/
  | lineBreak
  /-- from here on, lines and blanks are kept as they are -/
  | noFill
  /-- ends the effect of `noFill` -/
  | fill
  /-- a paragraph with a tag, which is the next line -/
  | tagged
  /-- a paragraph with a marker, which is an argument -/
  | marked
  /-- sets the indent -/
  | indent
  /-- begins a paragraph -/
  | paragraph
  /-- shows its arguments or the next line in a font -/
  | inFont (font : Font)
  /-- shows its arguments in two fonts by turns -/
  | alternating (odd even : Font)
  /-- opens a margin scope -/
  | openMargin
  /-- closes margin scopes -/
  | closeMargin
  /-- a condition, which is never met -/
  | condition
deriving DecidableEq

namespace Macro

/-- The names of the macros. -/
def names : List (Text × Macro) :=
  [ (['.', 'T', 'H'], title), (['.', 'S', 'H'], heading), (['.', 'S', 'S'], subheading),
    (['.', 's', 'p'], skip), (['.', 'b', 'r'], lineBreak), (['.', 'n', 'f'], noFill),
    (['.', 'f', 'i'], fill), (['.', 'T', 'P'], tagged), (['.', 'I', 'P'], marked),
    (['.', 'P', 'D'], indent), (['.', 'P', 'P'], paragraph), (['.', 'B'], inFont .bold),
    (['.', 'I'], inFont .italic), (['.', 'B', 'R'], alternating .bold .regular),
    (['.', 'R', 'B'], alternating .regular .bold), (['.', 'B', 'I'], alternating .bold .underline),
    (['.', 'I', 'B'], alternating .underline .bold),
    (['.', 'I', 'R'], alternating .underline .regular),
    (['.', 'R', 'I'], alternating .regular .underline), (['.', 'R', 'S'], openMargin),
    (['.', 'R', 'E'], closeMargin), (['.', 'i', 'f'], condition) ]

/-- The name that an alias stands for; any other name stands for itself. -/
def canonicalName : Text → Text
  | ['.', 'L', 'P'] => ['.', 'P', 'P']
  | ['.', 'P'] => ['.', 'P', 'P']
  | t => t

/-- The macro of a name or alias. -/
def ofName? (name : Text) : Option Macro :=
  names.lookup (canonicalName name)

end Macro

end Manpage
