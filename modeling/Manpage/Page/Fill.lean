import Manpage.Page.Basic

/-!
# Filling lines

How a page takes texts. A text that would overflow its line goes to the next one, and a space at
that point is dropped. Texts that are appended while a word is open form one unit: the line is
broken, if at all, before the whole word, once it is complete. Every line begins with as many
spaces as the margin and the indent ask for, but never with more than fit.

A break while a word is open gives up that word: what was appended stays where it is, and nothing
of it is carried over later.

## Main definitions

* `Manpage.Page.breakLine`, `Manpage.Page.lineBreak`, `Manpage.Page.blankLine` — ends of lines.
* `Manpage.Page.append`, `Manpage.Page.appendSpace` — texts and spaces between words.
* `Manpage.Page.openWord`, `Manpage.Page.closeWord` — blocks that keep a word together.
-/

namespace Manpage.Page

/-! ## Line ends -/

/-- The number of spaces that a line begins with. -/
def padding (p : Page) : Nat :=
  (min (p.margin + p.indent) p.width).toNat

/-- The current line replaced by a fresh one, with nothing on it but its padding. -/
def startLine (p : Page) : Page :=
  { p with
    line := List.replicate p.padding Piece.space
    extent := ⟨p.padding, 0⟩
    word := none }

/-- Ends the current line, without the blank pieces at its end, and starts a fresh one. -/
def breakLine (p : Page) : Page :=
  startLine { p with finished := p.currentLine.dropWhile Piece.isBlank :: p.finished }

/-- Ends the current line; a blank line is started afresh instead. -/
def lineBreak (p : Page) : Page :=
  if p.isLineBlank then p.startLine else p.breakLine

/-- Ends the current line and leaves an empty one; a blank line is started afresh instead. -/
def blankLine (p : Page) : Page :=
  if p.isLineBlank then p.startLine else p.breakLine.breakLine

/-- Ends so many lines. -/
def breakLines (p : Page) : Nat → Page
  | 0 => p
  | n + 1 => p.breakLine.breakLines n

/-! ## Texts -/

/-- Puts a text on the current line, or into the word that is open, in the face of the style. -/
def put (p : Page) (t : Text) : Page :=
  let piece : Piece := ⟨t, p.style.faceOf t⟩
  let p := { p with extent := p.extent.add t }
  match p.word with
  | none => { p with line := piece :: p.line }
  | some w => { p with word := some { w with pieces := piece :: w.pieces } }

/-- Appends a text. A text that would overflow goes to the next line unless the current one is
blank; a single space that would overflow only ends the line. While a word is open nothing
overflows. A line feed alone ends the line. -/
def append (p : Page) (t : Text) : Page :=
  if t = [] then p
  else if t = ['\n'] then p.breakLine
  else if p.word.isSome || p.lineLength + t.length ≤ p.width then p.put t
  else if t = [' '] then if p.isLineBlank then p else p.breakLine
  else if p.isLineBlank then p.put t
  else p.breakLine.put t

/-- Appends a space between words: none on a blank line, and none after a blank piece. -/
def appendSpace (p : Page) : Page :=
  if p.isLineBlank || p.currentLine.head?.any Piece.isBlank then p
  else p.append [' ']

/-! ## Words -/

/-- Opens a block that keeps what is appended in it together. The block owns the word unless one
is open already. -/
def openWord (p : Page) : Page :=
  match p.word with
  | some _ => { p with blocks := false :: p.blocks }
  | none => { p with blocks := true :: p.blocks, word := some ⟨[], !p.isLineBlank⟩ }

/-- Puts a complete word on the current line. -/
def settleWord (p : Page) (w : OpenWord) : Page :=
  { p with word := none, line := w.pieces ++ p.line }

/-- Ends the line before a complete word and puts the word on the next line. -/
def carryWord (p : Page) (w : OpenWord) : Page :=
  let next := breakLine { p with word := none }
  { next with line := w.pieces ++ next.line, extent := next.extent.addPieces w.pieces }

/-- Completes the word that is open: a word that overflows a line with other text before it is
carried over. -/
def completeWord (p : Page) : Page :=
  match p.word with
  | none => p
  | some w =>
    if !w.pieces.isEmpty && w.afterText && p.width < p.lineLength then p.carryWord w
    else p.settleWord w

/-- Closes the innermost block; a block that owns the word completes it. -/
def closeWord (p : Page) : Page :=
  match p.blocks with
  | [] => p
  | owner :: outer =>
    let p := { p with blocks := outer }
    if owner then p.completeWord else p

end Manpage.Page
