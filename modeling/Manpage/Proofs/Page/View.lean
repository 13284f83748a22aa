import Manpage.Page.Fill
import Manpage.Proofs.Text.Blank

/-!
# The characters on a page

A page keeps pieces with faces, an extent and perhaps an open word. Most of what there is to say
about filling lines speaks of the characters alone: those of the current line, of the open word and
of the finished lines. This file reads them off a page and says what each operation does to them.

The extent is kept beside the pieces and decides every wrap. It agrees with the pieces in every
state, so that its two questions, how long the line is and whether it is blank, are questions about
the characters of the line.

## Main definitions

* `Manpage.Piece.lineText`, `Manpage.Page.lineText` — the characters of a line.
* `Manpage.Piece.IsPure` — a piece of blanks without a face, or of ink, and not empty.
* `Manpage.Page.Accounted` — the extent is that of the pieces on the line, which are pure.
* `Manpage.Page.pieces` — every piece on a page.

## Main results

* `Manpage.Page.Accounted.lineLength_eq`, `Manpage.Page.Accounted.isLineBlank_eq` — the extent
  answers for the characters of the line.
* `Manpage.Piece.lineText_dropWhile` — dropping the blank pieces at the end of a line strips it.
* `Manpage.Page.Accounted.put` — a text of one sort that is put on a line is accounted for.
-/

namespace Manpage

/-! ## Pieces and their extent -/

namespace Piece

/-- A piece of one sort of characters, and not empty; one of blanks has no face. -/
structure IsPure (x : Piece) : Prop where
  ne_nil : x.text ≠ []
  sort : x.text.isBlank = true ∨ x.text.isInk = true
  face_eq : x.isBlank = true → x.face = none

/-- A single plain space is pure. -/
theorem isPure_space : space.IsPure :=
  ⟨by decide, Or.inl (by decide), fun _ => rfl⟩

/-- A text of one sort is a piece of that sort in any style. -/
theorem isPure_faceOf {t : Text} (hne : t ≠ []) (hsort : t.isBlank = true ∨ t.isInk = true)
    (style : Style) : IsPure ⟨t, style.faceOf t⟩ :=
  ⟨hne, hsort, fun h => if_pos h⟩

/-- The characters of a line's pieces, the latest piece first. -/
def lineText (pieces : List Piece) : Text :=
  pieces.reverse.flatMap Piece.text

/-- No pieces have no characters. -/
@[simp] theorem lineText_nil : lineText [] = [] := rfl

/-- The latest piece of a line stands at the end of its characters. -/
@[simp] theorem lineText_cons (x : Piece) (xs : List Piece) :
    lineText (x :: xs) = lineText xs ++ x.text := by
  simp [lineText]

/-- The characters of two rows of pieces, the latest first, are those of the earlier row and those
of the later one. -/
@[simp] theorem lineText_append (xs ys : List Piece) :
    lineText (xs ++ ys) = lineText ys ++ lineText xs := by
  simp [lineText]

/-- So many spaces have the characters of a text of so many spaces. -/
@[simp] theorem lineText_replicate_space (n : Nat) :
    lineText (List.replicate n space) = Text.spaces n := by
  induction n with
  | zero => rfl
  | succ n ih =>
    rw [List.replicate_succ, lineText_cons, ih, Text.spaces, Text.spaces, List.replicate_succ']
    rfl

/-- Dropping the blank pieces at the end of a line strips its characters. By induction from the end
of the line on: a blank piece is stripped as a whole, and a piece of ink stops both. -/
theorem lineText_dropWhile {pieces : List Piece} (h : ∀ x ∈ pieces, x.IsPure) :
    lineText (pieces.dropWhile isBlank) = (lineText pieces).stripRight := by
  induction pieces with
  | nil => rfl
  | cons x xs ih =>
    obtain ⟨hne, hsort, -⟩ := h x List.mem_cons_self
    rw [List.dropWhile_cons, lineText_cons]
    rcases hsort with hb | hk
    · have hx : x.isBlank = true := hb
      rw [if_pos hx, Text.stripRight_append_of_isBlank _ hb]
      exact ih fun y hy => h y (List.mem_cons_of_mem x hy)
    · have hb : ¬ x.isBlank = true := by
        simpa [isBlank] using Text.isBlank_eq_false_of_isInk hk hne
      rw [if_neg hb, Text.stripRight_append_of_isInk _ hk hne, lineText_cons]

/-- Only a line without pieces has no characters. -/
theorem lineText_eq_nil_iff {pieces : List Piece} (h : ∀ x ∈ pieces, x.IsPure) :
    lineText pieces = [] ↔ pieces = [] := by
  cases pieces with
  | nil => simp
  | cons x xs => simp [(h x List.mem_cons_self).ne_nil]

end Piece

namespace Extent

/-- No pieces take up no columns. -/
@[simp] theorem addPieces_nil (e : Extent) : e.addPieces [] = e := rfl

/-- The latest piece of a line is added to the extent last. -/
@[simp] theorem addPieces_cons (e : Extent) (x : Piece) (xs : List Piece) :
    e.addPieces (x :: xs) = (e.addPieces xs).add x.text := rfl

/-- Pieces are added row by row, the earlier row first. -/
theorem addPieces_append (e : Extent) (xs ys : List Piece) :
    e.addPieces (xs ++ ys) = (e.addPieces ys).addPieces xs := by
  simp [addPieces]

/-- A text takes up as many columns as it has characters, whichever of the two numbers they go to.
-/
theorem length_add (e : Extent) (t : Text) : (e.add t).length = e.length + t.length := by
  cases t with
  | nil => simp [add]
  | cons c t =>
    simp only [add, length]
    split
    · simp only; omega
    · simp only; omega

/-- The extent of a line's pieces is as long as their characters. -/
theorem length_addPieces (e : Extent) (xs : List Piece) :
    (e.addPieces xs).length = e.length + (Piece.lineText xs).length := by
  induction xs with
  | nil => simp
  | cons x xs ih =>
    rw [addPieces_cons, length_add, ih, Piece.lineText_cons, List.length_append]
    omega

/-- A text of one sort leaves a blank extent blank just when it is blank itself. Its first character
says of which sort it is. -/
theorem isBlank_add (e : Extent) {t : Text} (h : t.isBlank = true ∨ t.isInk = true) :
    (e.add t).isBlank = (e.isBlank && t.isBlank) := by
  cases t with
  | nil => simp [add]
  | cons c t =>
    rcases h with h | h
    · have hc : isSpace c = true := by
        simp only [Text.isBlank_cons, Bool.and_eq_true] at h
        exact h.1
      simp [add, isBlank, hc, h]
    · have hc : isSpace c = false := by
        simp only [Text.isInk_cons, Bool.and_eq_true, Bool.not_eq_true'] at h
        exact h.1
      simp [add, isBlank, hc]

/-- Pure pieces leave a blank extent blank just when their characters are. -/
theorem isBlank_addPieces (e : Extent) {xs : List Piece} (h : ∀ x ∈ xs, x.IsPure) :
    (e.addPieces xs).isBlank = (e.isBlank && (Piece.lineText xs).isBlank) := by
  induction xs with
  | nil => simp
  | cons x xs ih =>
    rw [addPieces_cons, isBlank_add _ (h x List.mem_cons_self).sort,
      ih fun y hy => h y (List.mem_cons_of_mem x hy), Piece.lineText_cons, Text.isBlank_append,
      Bool.and_assoc]

/-- Spaces take up columns of blanks only. -/
theorem addPieces_replicate_space (n : Nat) :
    empty.addPieces (List.replicate n Piece.space) = ⟨n, 0⟩ := by
  induction n with
  | zero => rfl
  | succ n ih =>
    rw [List.replicate_succ, addPieces_cons, ih]
    rfl

end Extent

namespace Page

variable {p : Page} {t : Text} {x : Piece}

/-- The characters of the current line, those of an open word included. -/
def lineText (p : Page) : Text :=
  Piece.lineText p.currentLine

/-- Every piece on a page: those of the current line and of the finished lines. -/
def pieces (p : Page) : List Piece :=
  p.currentLine ++ p.finished.flatten

/-! ## Line accounting -/

/-- The extent is that of the pieces on the line, and each of them is of one sort. -/
structure Accounted (p : Page) : Prop where
  extent_eq : p.extent = Extent.empty.addPieces p.currentLine
  pure : ∀ x ∈ p.currentLine, x.IsPure

/-- The extent is as long as the line. -/
theorem Accounted.lineLength_eq (h : p.Accounted) : p.lineLength = p.lineText.length := by
  rw [lineLength, h.extent_eq, Extent.length_addPieces, lineText]
  exact Nat.zero_add _

/-- The extent is blank just when the line is. -/
theorem Accounted.isLineBlank_eq (h : p.Accounted) : p.isLineBlank = p.lineText.isBlank := by
  rw [isLineBlank, h.extent_eq, Extent.isBlank_addPieces _ h.pure, lineText]
  exact Bool.true_and _

/-- An empty page is accounted for: nothing stands on it, and nothing is counted. -/
theorem accounted_ofWidth (width : Int) : (ofWidth width).Accounted :=
  ⟨rfl, by simp [ofWidth, currentLine]⟩

/-! ## Line ends -/

/-- A fresh line holds the spaces of its padding and nothing else, even if a word was open. -/
@[simp] theorem currentLine_startLine (p : Page) :
    p.startLine.currentLine = List.replicate p.padding Piece.space := rfl

/-- The characters of a fresh line are the spaces of its padding. -/
@[simp] theorem lineText_startLine (p : Page) : p.startLine.lineText = Text.spaces p.padding := by
  rw [lineText, currentLine_startLine, Piece.lineText_replicate_space]

/-- A fresh line is accounted for, whatever stood there before. -/
theorem accounted_startLine (p : Page) : p.startLine.Accounted := by
  refine ⟨?_, ?_⟩
  · rw [currentLine_startLine, Extent.addPieces_replicate_space]
    rfl
  · intro x hx
    obtain rfl := List.eq_of_mem_replicate hx
    exact Piece.isPure_space

/-- Behind a break a page is accounted for, whatever it was before: the new line is padded, and its
extent is set to the padding. -/
theorem accounted_breakLine (p : Page) : p.breakLine.Accounted :=
  accounted_startLine _

/-- Behind a break the line has the spaces of its padding. -/
@[simp] theorem lineText_breakLine (p : Page) : p.breakLine.lineText = Text.spaces p.padding :=
  lineText_startLine _

/-- A fresh line leaves the finished lines as they are. -/
@[simp] theorem finished_startLine (p : Page) : p.startLine.finished = p.finished := rfl

/-- A break finishes the current line, the pieces of an open word included, without the blanks at
its end. -/
@[simp] theorem finished_breakLine (p : Page) :
    p.breakLine.finished = p.currentLine.dropWhile Piece.isBlank :: p.finished := rfl

/-- A fresh line holds no open word. -/
@[simp] theorem word_startLine (p : Page) : p.startLine.word = none := rfl

/-- A break gives up the word that is open. -/
@[simp] theorem word_breakLine (p : Page) : p.breakLine.word = none := rfl

/-- A fresh line is as wide as the one before. -/
@[simp] theorem width_startLine (p : Page) : p.startLine.width = p.width := rfl

/-- Behind a break lines are as wide as before. -/
@[simp] theorem width_breakLine (p : Page) : p.breakLine.width = p.width := rfl

/-- With a fresh line nothing comes onto a page but spaces. -/
theorem mem_pieces_startLine (h : x ∈ p.startLine.pieces) : x = Piece.space ∨ x ∈ p.pieces := by
  rw [pieces, List.mem_append] at h
  rcases h with h | h
  · exact Or.inl (List.eq_of_mem_replicate h)
  · exact Or.inr (List.mem_append_right _ h)

/-- With a break nothing comes onto a page but spaces, those that pad the new line. -/
theorem mem_pieces_breakLine (h : x ∈ p.breakLine.pieces) : x = Piece.space ∨ x ∈ p.pieces := by
  rcases mem_pieces_startLine h with h | h
  · exact Or.inl h
  · refine Or.inr ?_
    change x ∈ p.currentLine ++ (p.currentLine.dropWhile Piece.isBlank :: p.finished).flatten at h
    simp only [pieces, List.flatten_cons, List.mem_append] at h ⊢
    rcases h with h | h | h
    · exact Or.inl h
    · exact Or.inl ((List.dropWhile_sublist _).subset h)
    · exact Or.inr h

/-! ## Texts -/

/-- A text is put behind all that stands on the line, in the face of the style. Where a word is open
it joins the word, which makes no difference to the line as a whole. -/
@[simp] theorem currentLine_put (p : Page) (t : Text) :
    (p.put t).currentLine = ⟨t, p.style.faceOf t⟩ :: p.currentLine := by
  unfold put currentLine
  cases p.word <;> rfl

/-- A text is put behind the characters of the line. -/
@[simp] theorem lineText_put (p : Page) (t : Text) : (p.put t).lineText = p.lineText ++ t := by
  rw [lineText, currentLine_put, Piece.lineText_cons, lineText]

/-- A text that is put on a line is counted there. -/
@[simp] theorem extent_put (p : Page) (t : Text) : (p.put t).extent = p.extent.add t := by
  unfold put
  cases p.word <;> rfl

/-- Putting a text finishes no line. -/
@[simp] theorem finished_put (p : Page) (t : Text) : (p.put t).finished = p.finished := by
  unfold put
  cases p.word <;> rfl

/-- Putting a text leaves the width as it is. -/
@[simp] theorem width_put (p : Page) (t : Text) : (p.put t).width = p.width := by
  unfold put
  cases p.word <;> rfl

/-- A text of one sort that is put on a line is accounted for. It is a pure piece, and the extent
grows by its length. -/
theorem Accounted.put (h : p.Accounted) (hne : t ≠ [])
    (hsort : t.isBlank = true ∨ t.isInk = true) : (p.put t).Accounted := by
  refine ⟨?_, ?_⟩
  · rw [extent_put, currentLine_put, Extent.addPieces_cons, h.extent_eq]
  · intro x hx
    rw [currentLine_put, List.mem_cons] at hx
    rcases hx with rfl | hx
    · exact Piece.isPure_faceOf hne hsort p.style
    · exact h.pure x hx

/-- With a text nothing comes onto a page but one piece, that of the text. -/
theorem mem_pieces_put (h : x ∈ (p.put t).pieces) :
    x = ⟨t, p.style.faceOf t⟩ ∨ x ∈ p.pieces := by
  simpa [pieces] using h

end Page

end Manpage
