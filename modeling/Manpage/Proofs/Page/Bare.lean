import Manpage.Proofs.Page.Operation

/-!
# Pages without their faces

A page is filled by what is appended to it, not by how that is shown. When the faces are taken off
a page, its style included, every operation does to it what it did before, apart from those that
change the style, which have nothing left to do. So where lines end, how far they reach and how they
begin does not depend on the style.

## Main definitions

* `Manpage.Page.bare` — a page with all faces taken off.
* `Manpage.Page.Operation.isStyling` — whether an operation changes the style and nothing else.

## Main results

* `Manpage.Page.bare_perform` — an operation on a page with its faces taken off.
* `Manpage.Page.bare_performAll_ofWidth` — taking off the faces at the end is the same as leaving
  out the operations that change the style.
-/

namespace Manpage

/-! ## Faces taken off -/

namespace Piece

/-- The piece without its face. -/
def bare (x : Piece) : Piece :=
  ⟨x.text, none⟩

/-- Taking the face off a piece leaves its text. -/
@[simp] theorem text_bare (x : Piece) : x.bare.text = x.text := rfl

/-- A single plain space has no face to be taken off. -/
@[simp] theorem bare_space : space.bare = space := rfl

/-- Whether a piece is blank does not depend on its face. -/
@[simp] theorem isBlank_comp_bare : isBlank ∘ bare = isBlank := rfl

/-- What is shown of pieces without a face are their characters. -/
@[simp] theorem showLine_map_bare (xs : List Piece) : showLine (xs.map bare) = lineText xs := by
  induction xs with
  | nil => rfl
  | cons x xs ih =>
    rw [List.map_cons, showLine_cons, lineText_cons, ih]
    rfl

end Piece

/-- Pieces take up as many columns without their faces. -/
@[simp] theorem Extent.addPieces_map_bare (e : Extent) (xs : List Piece) :
    e.addPieces (xs.map Piece.bare) = e.addPieces xs := by
  simp [addPieces, List.foldr_map]

/-- The open word without its faces. -/
def OpenWord.bare (w : OpenWord) : OpenWord :=
  { w with pieces := w.pieces.map Piece.bare }

namespace Page

variable {p : Page} {w : OpenWord}

/-- The page with all faces taken off, and in the plain style. -/
def bare (p : Page) : Page :=
  { p with
    style := .plain
    finished := p.finished.map (List.map Piece.bare)
    line := p.line.map Piece.bare
    word := p.word.map OpenWord.bare }

/-- An empty page has no faces to be taken off. -/
@[simp] theorem bare_ofWidth (width : Int) : (ofWidth width).bare = ofWidth width := rfl

/-- Without its faces a page has a line of the same length. -/
@[simp] theorem lineLength_bare (p : Page) : p.bare.lineLength = p.lineLength := rfl

/-- Without its faces a page has a blank line just if it has one with them. -/
@[simp] theorem isLineBlank_bare (p : Page) : p.bare.isLineBlank = p.isLineBlank := rfl

/-- Without its faces a page has an open word just if it has one with them. -/
@[simp] theorem isSome_word_bare (p : Page) : p.bare.word.isSome = p.word.isSome :=
  Option.isSome_map

/-- The current line of a page without its faces has the pieces of the line without theirs. -/
@[simp] theorem currentLine_bare (p : Page) :
    p.bare.currentLine = p.currentLine.map Piece.bare := by
  cases hw : p.word <;> simp [currentLine, bare, hw, OpenWord.bare]

/-- The pieces of a page without its faces are those of the page without theirs. -/
theorem pieces_bare (p : Page) : p.bare.pieces = p.pieces.map Piece.bare := by
  rw [pieces, currentLine_bare, pieces, List.map_append, List.map_flatten]
  rfl

/-- The lines of a page without its faces are those of the page without the faces of their pieces.
-/
theorem lines_bare (p : Page) : p.bare.lines = p.lines.map (List.map Piece.bare) := by
  rw [lines, currentLine_bare, List.dropWhile_map, Piece.isBlank_comp_bare, lines, List.map_reverse,
    List.map_cons]
  rfl

/-! ## Line ends -/

/-- A fresh line commutes with taking the faces off. -/
theorem bare_startLine (p : Page) : p.startLine.bare = p.bare.startLine := by
  simp [startLine, bare, padding, margin]

/-- A break commutes with taking the faces off: the same blanks are dropped from the end of the
line. -/
theorem bare_breakLine (p : Page) : p.breakLine.bare = p.bare.breakLine := by
  have hdrop : (p.currentLine.map Piece.bare).dropWhile Piece.isBlank =
      (p.currentLine.dropWhile Piece.isBlank).map Piece.bare := by
    rw [List.dropWhile_map, Piece.isBlank_comp_bare]
  rw [breakLine, bare_startLine, breakLine, currentLine_bare, hdrop]
  rfl

/-- The end of a line commutes with taking the faces off. -/
theorem bare_lineBreak (p : Page) : p.lineBreak.bare = p.bare.lineBreak := by
  rw [lineBreak, lineBreak, isLineBlank_bare]
  split
  · exact bare_startLine p
  · exact bare_breakLine p

/-- An empty line commutes with taking the faces off. -/
theorem bare_blankLine (p : Page) : p.blankLine.bare = p.bare.blankLine := by
  rw [blankLine, blankLine, isLineBlank_bare]
  split
  · exact bare_startLine p
  · rw [bare_breakLine, bare_breakLine]

/-! ## Texts -/

/-- In the plain style a text is put on a page without a face. -/
theorem bare_put (p : Page) (t : Text) : (p.put t).bare = p.bare.put t := by
  have hface : Style.plain.faceOf t = none := ite_self none
  cases hw : p.word <;> simp [put, bare, hw, OpenWord.bare, Piece.bare, hface]

/-- Appending a text commutes with taking the faces off, whether the text fits or goes to the next
line.

**Proof sketch.** The faces have no say in the questions that decide where the text goes, so that
both pages take the same branch. -/
theorem bare_append (p : Page) (t : Text) : (p.append t).bare = p.bare.append t := by
  have hwidth : p.bare.width = p.width := rfl
  rw [append, append, isSome_word_bare, lineLength_bare, isLineBlank_bare, hwidth]
  split
  · rfl
  · split
    · exact bare_breakLine p
    · split
      · exact bare_put p t
      · split
        · split
          · rfl
          · exact bare_breakLine p
        · split
          · exact bare_put p t
          · rw [bare_put, bare_breakLine]

/-- A space commutes with taking the faces off. -/
theorem bare_appendSpace (p : Page) : p.appendSpace.bare = p.bare.appendSpace := by
  have hlast : (p.currentLine.map Piece.bare).head?.any Piece.isBlank =
      p.currentLine.head?.any Piece.isBlank := by
    cases p.currentLine <;> rfl
  rw [appendSpace, appendSpace, isLineBlank_bare, currentLine_bare, hlast]
  split
  · rfl
  · exact bare_append p [' ']

/-! ## Words -/

/-- Opening a word commutes with taking the faces off. -/
theorem bare_openWord (p : Page) : p.openWord.bare = p.bare.openWord := by
  cases hw : p.word <;> simp [openWord, bare, hw, OpenWord.bare, isLineBlank]

/-- Settling a word commutes with taking the faces off the page and the word. -/
theorem bare_settleWord (p : Page) (w : OpenWord) :
    (p.settleWord w).bare = p.bare.settleWord w.bare := by
  simp [settleWord, bare, OpenWord.bare]

/-- Carrying a word over commutes with taking the faces off the page and the word. -/
theorem bare_carryWord (p : Page) (w : OpenWord) :
    (p.carryWord w).bare = p.bare.carryWord w.bare := by
  have hbreak : (breakLine { p with word := none }).bare =
      breakLine { p.bare with word := none } := bare_breakLine { p with word := none }
  have hpieces : w.bare.pieces = w.pieces.map Piece.bare := rfl
  rw [carryWord, carryWord, ← hbreak, hpieces]
  simp [bare]

/-- Completing a word commutes with taking the faces off: whether it is carried over depends on
lengths alone. -/
theorem bare_completeWord (p : Page) : p.completeWord.bare = p.bare.completeWord := by
  cases hw : p.word with
  | none =>
    have hbare : p.bare.word = none := congrArg (Option.map OpenWord.bare) hw
    rw [completeWord, hw, completeWord, hbare]
  | some w =>
    have hbare : p.bare.word = some w.bare := congrArg (Option.map OpenWord.bare) hw
    have hempty : w.bare.pieces.isEmpty = w.pieces.isEmpty := List.isEmpty_map
    have hwidth : p.bare.width = p.width := rfl
    have hafter : w.bare.afterText = w.afterText := rfl
    rw [completeWord, hw, completeWord, hbare]
    simp only [hempty, hafter, hwidth, lineLength_bare]
    split
    · exact bare_carryWord p w
    · exact bare_settleWord p w

/-- Closing the block of a word commutes with taking the faces off. -/
theorem bare_closeWord (p : Page) : p.closeWord.bare = p.bare.closeWord := by
  have hblocks : p.bare.blocks = p.blocks := rfl
  rw [closeWord, closeWord, hblocks]
  split
  · rfl
  · split
    · exact bare_completeWord { p with blocks := _ }
    · rfl

/-! ## Any operations -/

/-- Whether an operation changes the style of a page, and nothing else. -/
def Operation.isStyling : Operation → Bool
  | setStyle _ _ | plainStyle => true
  | _ => false

/-- **An operation on a page with its faces taken off.** It does what it does to the page with its
faces; one that changes the style leaves nothing behind.

**Proof sketch.** By cases on the operation, with one equation for each that touches the lines. -/
theorem bare_perform (p : Page) (op : Operation) :
    (p.perform op).bare = if op.isStyling then p.bare else p.bare.perform op := by
  cases op with
  | append t => exact bare_append p t
  | appendSpace => exact bare_appendSpace p
  | breakLine => exact bare_breakLine p
  | lineBreak => exact bare_lineBreak p
  | blankLine => exact bare_blankLine p
  | openWord => exact bare_openWord p
  | closeWord => exact bare_closeWord p
  | popMargin =>
    have hmargins : p.bare.margins = p.margins := rfl
    simp only [perform, popMargin?, Operation.isStyling, hmargins]
    cases p.margins <;> rfl
  | setStyle | plainStyle | setNoFill | setIndent | storeIndent | forgetIndent | pushMargin
  | clearMargins | sectionMargin => rfl

/-- Taking off the faces after some operations is the same as taking them off before, and leaving
out the operations that change the style. -/
theorem bare_performAll (p : Page) (ops : List Operation) :
    (p.performAll ops).bare = p.bare.performAll (ops.filter fun op => !op.isStyling) := by
  induction ops generalizing p with
  | nil => rfl
  | cons op ops ih =>
    have hfirst : ((p.perform op).performAll ops).bare =
        (p.perform op).bare.performAll (ops.filter fun op => !op.isStyling) := ih (p.perform op)
    rw [performAll, List.foldl_cons, ← performAll, hfirst, bare_perform, List.filter_cons]
    cases op.isStyling <;> rfl

/-- Without the operations that change the style, a fresh page becomes what it becomes with them
when the faces are taken off in the end. -/
theorem bare_performAll_ofWidth (width : Int) (ops : List Operation) :
    ((ofWidth width).performAll ops).bare =
      (ofWidth width).performAll (ops.filter fun op => !op.isStyling) := by
  rw [bare_performAll, bare_ofWidth]

end Page

end Manpage
