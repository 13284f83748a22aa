import Manpage.Style

/-!
# Pages

A page takes texts one by one and fills lines with them. It keeps the lines that are finished, the
pieces that stand on the current line, and the word that is being put together, if one is open.
What is appended from now on depends on the style, the indent and the margin scopes.

Lists of pieces, lines and margins hold the latest element first.

## Main definitions

* `Manpage.Piece` — a text that was appended, with the face it is shown in.
* `Manpage.Extent` — the number of columns taken up on a line, blanks and others apart.
* `Manpage.OpenWord` — the pieces of a word that is not yet complete.
* `Manpage.Page` — a page, with its views `Manpage.Page.text`, `Manpage.Page.lineLength` and
  `Manpage.Page.isLineBlank`.
* `Manpage.Page.ofWidth` — the empty page for lines of a given width.
-/

namespace Manpage

/-! ## Pieces and extents -/

/-- A text that was appended to a line, with the face it is shown in. -/
structure Piece where
  text : Text
  face : Option Face
deriving DecidableEq

namespace Piece

/-- A piece of blanks only. -/
def isBlank (p : Piece) : Bool :=
  p.text.isBlank

/-- The piece as a terminal is to show it. -/
def shown (p : Piece) : Text :=
  showIn p.face p.text

/-- A single plain space. -/
def space : Piece :=
  ⟨[' '], none⟩

/-- The pieces of a line, the latest first, as a terminal is to show them. -/
def showLine (pieces : List Piece) : Text :=
  pieces.reverse.flatMap shown

end Piece

/-- The columns taken up on a line, those of blank texts and those of others. A text counts as
blank by its first character. -/
structure Extent where
  blank : Nat
  ink : Nat
deriving DecidableEq

namespace Extent

/-- Nothing taken up. -/
def empty : Extent :=
  ⟨0, 0⟩

/-- The number of columns in all. -/
def length (e : Extent) : Nat :=
  e.blank + e.ink

/-- Nothing but blanks. -/
def isBlank (e : Extent) : Bool :=
  e.ink == 0

/-- The extent after one more text. -/
def add (e : Extent) (t : Text) : Extent :=
  match t with
  | [] => e
  | c :: _ =>
    if isSpace c then { e with blank := e.blank + t.length }
    else { e with ink := e.ink + t.length }

/-- The extent after the pieces of a line, the latest first. -/
def addPieces (e : Extent) (pieces : List Piece) : Extent :=
  pieces.foldr (fun piece e => e.add piece.text) e

end Extent

/-! ## Pages -/

/-- A word that is not yet complete: its pieces, and whether other text stands before it on its
line. -/
structure OpenWord where
  pieces : List Piece
  afterText : Bool
deriving DecidableEq

/-- A page in the making. -/
structure Page where
  /-- the number of columns that a line should not exceed -/
  width : Nat
  style : Style
  /-- lines and blanks are to be kept as they are -/
  noFill : Bool
  indent : Int
  /-- the indent that paragraphs without one of their own take -/
  storedIndent : Option Int
  /-- the amounts of the open margin scopes -/
  margins : List Int
  /-- the lines that are complete -/
  finished : List (List Piece)
  /-- the pieces on the current line, those of an open word apart -/
  line : List Piece
  /-- the columns taken up by the current line and the open word -/
  extent : Extent
  word : Option OpenWord
  /-- the blocks that keep a word together, marked where they own the word that is open -/
  blocks : List Bool
deriving DecidableEq

namespace Page

/-- The indent of paragraphs where none is given or stored. -/
def defaultIndent : Int :=
  7

/-- The margin below a section heading. -/
def defaultMargin : Int :=
  7

/-- The empty page for lines of a given width, which is one column at least. -/
def ofWidth (width : Int) : Page where
  width := (max 1 width).toNat
  style := .plain
  noFill := false
  indent := 0
  storedIndent := none
  margins := []
  finished := []
  line := []
  extent := .empty
  word := none
  blocks := []

/-! ## Views -/

/-- The pieces that stand on the current line, those of an open word included. -/
def currentLine (p : Page) : List Piece :=
  match p.word with
  | none => p.line
  | some w => w.pieces ++ p.line

/-- The number of columns taken up on the current line. -/
def lineLength (p : Page) : Nat :=
  p.extent.length

/-- Nothing but blanks stands on the current line. -/
def isLineBlank (p : Page) : Bool :=
  p.extent.isBlank

/-- All that stands on the page, as a terminal is to show it. -/
def shown (p : Page) : Text :=
  (p.finished.reverse.flatMap fun line => Piece.showLine line ++ ['\n']) ++
    Piece.showLine p.currentLine

/-- The text of the page, without the blanks and empty lines at its end. -/
def text (p : Page) : Text :=
  p.shown.stripRight

/-- The left margin: the amounts of all open scopes together. -/
def margin (p : Page) : Int :=
  p.margins.foldr (· + ·) 0

/-- The stored indent, or the default where none is stored. -/
def paragraphIndent (p : Page) : Int :=
  p.storedIndent.getD defaultIndent

/-! ## Margins and indents -/

/-- Opens a margin scope. -/
def pushMargin (p : Page) (amount : Int) : Page :=
  { p with margins := amount :: p.margins }

/-- Closes the innermost margin scope, if one is open, and gives its amount. -/
def popMargin? (p : Page) : Option (Int × Page) :=
  match p.margins with
  | [] => none
  | amount :: more => some (amount, { p with margins := more })

/-- Closes all margin scopes. -/
def clearMargins (p : Page) : Page :=
  { p with margins := [] }

/-- Leaves one margin scope open, that of a section. -/
def sectionMargin (p : Page) : Page :=
  p.clearMargins.pushMargin defaultMargin

/-- Stores the indent. -/
def storeIndent (p : Page) : Page :=
  { p with storedIndent := some p.indent }

/-- Sets one flag of the style. -/
def setStyle (p : Page) (font : Font) (value : Bool) : Page :=
  { p with style := p.style.set font value }

end Page

end Manpage
