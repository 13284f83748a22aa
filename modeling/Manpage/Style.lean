import Manpage.Text.Basic

/-!
# Styles

A style is three flags, bold, italic and underline, that are set and cleared one by one. A terminal
shows one of them at a time, the face: bold before italic before underline. Blanks have no face.

## Main definitions

* `Manpage.Font` — what a style is changed by.
* `Manpage.Style` — the three flags, with `Manpage.Style.set`.
* `Manpage.Face` — what a terminal shows, with its control sequence.
* `Manpage.Style.faceOf` — the face of a text in a style.
* `Manpage.Style.stylize` — a text in a style, between control sequences.
-/

namespace Manpage

/-- A font: one of the three flags of a style, or regular, which stands for none of them. -/
inductive Font where
  | bold
  | italic
  | underline
  | regular
deriving DecidableEq

/-- Three independent flags. -/
structure Style where
  bold : Bool
  italic : Bool
  underline : Bool
deriving DecidableEq

/-- What a terminal shows of a style other than the plain one. -/
inductive Face where
  | bold
  | italic
  | underline
deriving DecidableEq

namespace Face

/-- The control sequence that a face begins with. -/
def start : Face → Text
  | bold => ['\x1b', '[', '1', 'm']
  | italic => ['\x1b', '[', '3', 'm']
  | underline => ['\x1b', '[', '4', 'm']

/-- The control sequence that ends every face. -/
def reset : Text :=
  ['\x1b', '[', '0', 'm']

end Face

/-- A text as a terminal is to show it, in a face or plainly. -/
def showIn (face : Option Face) (t : Text) : Text :=
  match face with
  | none => t
  | some f => f.start ++ t ++ Face.reset

namespace Style

/-- The style without a flag. -/
def plain : Style :=
  ⟨false, false, false⟩

/-- The style with one flag set to a value. Regular clears all flags, whatever the value. -/
def set (s : Style) (font : Font) (value : Bool) : Style :=
  match font with
  | .bold => { s with bold := value }
  | .italic => { s with italic := value }
  | .underline => { s with underline := value }
  | .regular => plain

/-- The face of a style: bold before italic before underline. -/
def face? (s : Style) : Option Face :=
  if s.bold then some .bold
  else if s.italic then some .italic
  else if s.underline then some .underline
  else none

/-- The face of a text in a style; a blank text has none. -/
def faceOf (s : Style) (t : Text) : Option Face :=
  if t.isBlank then none else s.face?

/-- A text in a style, as a terminal is to show it. -/
def stylize (s : Style) (t : Text) : Text :=
  showIn (s.faceOf t) t

end Style

end Manpage
