import Manpage.Proofs.Page.Operation
import Mathlib.Data.List.Forall2

/-!
# Pages that are alike

What is shown of a page does not depend on how the ink of its lines is divided into pieces, and
neither does anything that may be done to the page. Two pages that differ in no more than this never
come to differ in more.

## Main definitions

* `Manpage.Piece.Alike`, `Manpage.Page.Alike` — lines and pages that differ at most in where their
  ink is divided into pieces.

## Main results

* `Manpage.Page.Alike.text_eq` — pages that are alike have the same text.
* `Manpage.Page.Alike.performAll` — pages that are alike stay alike.
-/

namespace Manpage

/-! ## Lines that are alike -/

namespace Piece

/-- Two lines that differ at most in where their ink is divided into pieces. -/
inductive Alike : List Piece → List Piece → Prop
  | nil : Alike [] []
  | cons (x : Piece) {xs ys : List Piece} (h : Alike xs ys) : Alike (x :: xs) (x :: ys)
  | joined {parts : List Piece} {whole : Piece} {xs ys : List Piece} (hne : parts ≠ [])
      (hparts : ∀ x ∈ parts, ¬ x.isBlank = true) (hwhole : ¬ whole.isBlank = true)
      (hshown : showLine parts = whole.shown) (h : Alike xs ys) :
      Alike (parts ++ xs) (whole :: ys)

namespace Alike

variable {xs ys : List Piece}

/-- Pieces are like themselves. -/
theorem refl (xs : List Piece) : Alike xs xs := by
  induction xs with
  | nil => exact nil
  | cons x xs ih => exact cons x ih

/-- Pieces that are alike are so behind the same pieces in front. -/
theorem prepend (h : Alike xs ys) (front : List Piece) : Alike (front ++ xs) (front ++ ys) := by
  induction front with
  | nil => exact h
  | cons x front ih => exact cons x ih

/-- Pieces that are alike show the same. -/
theorem showLine_eq (h : Alike xs ys) : showLine xs = showLine ys := by
  induction h with
  | nil => rfl
  | cons x _ ih => rw [showLine_cons, showLine_cons, ih]
  | joined _ _ _ hshown _ ih => rw [showLine_append, showLine_cons, hshown, ih]

/-- Pieces that are alike stay so when the blanks at the end of the line are dropped. Ink that is
divided differently is no blank on either side. -/
theorem dropWhile (h : Alike xs ys) : Alike (xs.dropWhile isBlank) (ys.dropWhile isBlank) := by
  induction h with
  | nil => exact nil
  | cons x h ih =>
    rw [List.dropWhile_cons, List.dropWhile_cons]
    split
    · exact ih
    · exact cons x h
  | @joined parts whole xs ys hne hparts hwhole hshown h ih =>
    obtain ⟨x, rest, rfl⟩ := List.exists_cons_of_ne_nil hne
    rw [List.cons_append, List.dropWhile_cons_of_neg (hparts x List.mem_cons_self),
      List.dropWhile_cons_of_neg hwhole, ← List.cons_append]
    exact joined hne hparts hwhole hshown h

/-- Both lines end in a blank piece, or neither does. -/
theorem head?_any (h : Alike xs ys) : xs.head?.any isBlank = ys.head?.any isBlank := by
  cases h with
  | nil => rfl
  | cons x h => rfl
  | joined hne hparts hwhole hshown h =>
    obtain ⟨x, rest, rfl⟩ := List.exists_cons_of_ne_nil hne
    have hx : x.isBlank = false := by simpa using hparts x List.mem_cons_self
    simpa [hx] using hwhole

end Alike

end Piece

namespace Page

/-! ## Texts and words -/

section

variable {p : Page} {t : Text} {w : OpenWord}

/-- A text that is put between words goes onto the line, and is counted. -/
theorem put_of_none (h : p.word = none) :
    p.put t = { p with
      extent := p.extent.add t
      line := ⟨t, p.style.faceOf t⟩ :: p.line } := by
  unfold put
  simp [h]

/-- A text that is put while a word is open joins the word, and is counted. -/
theorem put_of_some (h : p.word = some w) :
    p.put t = { p with
      extent := p.extent.add t
      word := some { w with pieces := ⟨t, p.style.faceOf t⟩ :: w.pieces } } := by
  unfold put
  simp [h]

/-- Opening a word within another marks a block that owns none. -/
theorem openWord_of_some (h : p.word = some w) :
    p.openWord = { p with blocks := false :: p.blocks } := by
  rw [openWord, h]

end

/-! ## Pages that are alike -/

/-- Two pages that differ at most in where the ink of their lines is divided into pieces. -/
inductive Alike (p : Page) : Page → Prop
  | intro {finished : List (List Piece)} {line : List Piece}
      (hfinished : List.Forall₂ Piece.Alike p.finished finished)
      (hline : Piece.Alike p.line line) : Alike p { p with finished := finished, line := line }

namespace Alike

variable {p q : Page}

/-- A page is like itself. -/
theorem refl (p : Page) : p.Alike p :=
  intro (List.forall₂_same.mpr fun line _ => Piece.Alike.refl line) (Piece.Alike.refl p.line)

/-- The current lines of pages that are alike are alike, since their open words are the same. -/
theorem currentLine (h : p.Alike q) : Piece.Alike p.currentLine q.currentLine := by
  obtain ⟨_, hline⟩ := h
  unfold Page.currentLine
  cases p.word with
  | none => exact hline
  | some w => exact hline.prepend w.pieces

/-- The lines that are shown are the same. Alike lines are shown alike, and the text of a page reads
its finished lines and its current line only as they are shown. -/
theorem shown_eq (h : p.Alike q) : p.shown = q.shown := by
  have hcurrent := h.currentLine.showLine_eq
  have hfinished : List.Forall₂ Piece.Alike p.finished q.finished := by
    obtain ⟨hfinished, _⟩ := h
    exact hfinished
  have hlines : p.finished.map Piece.showLine = q.finished.map Piece.showLine := by
    generalize p.finished = xs, q.finished = ys at hfinished
    induction hfinished with
    | nil => rfl
    | cons hxy _ ih => rw [List.map_cons, List.map_cons, hxy.showLine_eq, ih]
  have hends : ∀ r : Page, (r.finished.reverse.flatMap fun line => Piece.showLine line ++ ['\n']) =
      (r.finished.map Piece.showLine).reverse.flatMap fun l => l ++ ['\n'] := by
    intro r
    rw [← List.map_reverse, List.flatMap_map]
  rw [shown, shown, hends, hends, hlines, hcurrent]

/-- Pages that are alike have the same text. -/
theorem text_eq (h : p.Alike q) : p.text = q.text := by
  rw [text, text, h.shown_eq]

/-- Pages that are alike have current lines of the same length. -/
theorem lineLength_eq (h : p.Alike q) : p.lineLength = q.lineLength := by
  obtain ⟨_, _⟩ := h
  rfl

/-- Pages that are alike have blank current lines both or neither. -/
theorem isLineBlank_eq (h : p.Alike q) : p.isLineBlank = q.isLineBlank := by
  obtain ⟨_, _⟩ := h
  rfl

/-- Pages that are alike have the same width. -/
theorem width_eq (h : p.Alike q) : p.width = q.width := by
  obtain ⟨_, _⟩ := h
  rfl

/-- Pages that are alike have the same settings. -/
theorem settings_eq (h : p.Alike q) : p.settings = q.settings := by
  obtain ⟨_, _⟩ := h
  rfl

/-- Pages that are alike have the same open word, piece by piece. -/
theorem word_eq (h : p.Alike q) : p.word = q.word := by
  obtain ⟨_, _⟩ := h
  rfl

/-! ### Line ends -/

/-- Pages that are alike stay so with a fresh line. -/
theorem startLine (h : p.Alike q) : p.startLine.Alike q.startLine := by
  obtain ⟨hfinished, _⟩ := h
  exact intro (p := p.startLine) hfinished (Piece.Alike.refl _)

/-- Pages that are alike stay so over a break. -/
theorem breakLine (h : p.Alike q) : p.breakLine.Alike q.breakLine := by
  have hended := h.currentLine.dropWhile
  obtain ⟨hfinished, _⟩ := h
  exact intro (p := p.breakLine) (.cons hended hfinished) (Piece.Alike.refl _)

/-- Pages that are alike stay so over the end of a line, as their lines are blank both or neither.
-/
theorem lineBreak (h : p.Alike q) : p.lineBreak.Alike q.lineBreak := by
  unfold Page.lineBreak
  rw [h.isLineBlank_eq]
  split
  · exact h.startLine
  · exact h.breakLine

/-- Pages that are alike stay so over an empty line. -/
theorem blankLine (h : p.Alike q) : p.blankLine.Alike q.blankLine := by
  unfold Page.blankLine
  rw [h.isLineBlank_eq]
  split
  · exact h.startLine
  · exact h.breakLine.breakLine

/-! ### Texts -/

/-- Pages that are alike stay so when a text is put on both. It joins the line where no word is open
on the two pages, and the word where one is. -/
theorem put (h : p.Alike q) (t : Text) : (p.put t).Alike (q.put t) := by
  cases hw : p.word with
  | none =>
    rw [put_of_none hw, put_of_none (h.word_eq ▸ hw)]
    obtain ⟨hfinished, hline⟩ := h
    exact intro (p := { p with extent := _, line := _ }) hfinished (hline.cons _)
  | some w =>
    rw [put_of_some hw, put_of_some (h.word_eq ▸ hw)]
    obtain ⟨hfinished, hline⟩ := h
    exact intro (p := { p with extent := _, word := _ }) hfinished hline

/-- Pages that are alike stay so when a text is appended to both. Whether it fits is the same
question for the two.

**Proof sketch.** The questions that decide where the text goes, whether a word is open, how long
the line is and whether it is blank, have the same answers on both pages. So both take the same
branch, and each branch is a break, a put text, or both. -/
theorem append (h : p.Alike q) (t : Text) : (p.append t).Alike (q.append t) := by
  unfold Page.append
  rw [h.word_eq, h.lineLength_eq, h.width_eq, h.isLineBlank_eq]
  split
  · exact h
  · split
    · exact h.breakLine
    · split
      · exact h.put t
      · split
        · split
          · exact h
          · exact h.breakLine
        · split
          · exact h.put t
          · exact h.breakLine.put t

/-- Pages that are alike stay so with a space. Whether the line ends in a blank is the same question
for the two. -/
theorem appendSpace (h : p.Alike q) : p.appendSpace.Alike q.appendSpace := by
  unfold Page.appendSpace
  rw [h.isLineBlank_eq, h.currentLine.head?_any]
  split
  · exact h
  · exact h.append [' ']

/-! ### Words -/

/-- Pages that are alike stay so when a word is opened. Both open one or neither does, since both
have an open word or neither has. -/
theorem openWord (h : p.Alike q) : p.openWord.Alike q.openWord := by
  cases hw : p.word with
  | none =>
    rw [openWord_of_none hw, openWord_of_none (h.word_eq ▸ hw)]
    obtain ⟨hfinished, hline⟩ := h
    exact intro (p := { p with blocks := _, word := _ }) hfinished hline
  | some w =>
    rw [openWord_of_some hw, openWord_of_some (h.word_eq ▸ hw)]
    obtain ⟨hfinished, hline⟩ := h
    exact intro (p := { p with blocks := _ }) hfinished hline

/-- Pages that are alike stay so when the same word is settled. -/
theorem settleWord (h : p.Alike q) (w : OpenWord) : (p.settleWord w).Alike (q.settleWord w) := by
  obtain ⟨hfinished, hline⟩ := h
  exact intro (p := p.settleWord w) hfinished (hline.prepend w.pieces)

/-- Pages that are alike stay so when the same word is carried over. -/
theorem carryWord (h : p.Alike q) (w : OpenWord) : (p.carryWord w).Alike (q.carryWord w) := by
  obtain ⟨hfinished, hline⟩ := h
  exact intro (p := p.carryWord w) (.cons hline.dropWhile hfinished) (Piece.Alike.refl _)

/-- Pages that are alike stay so when their word is completed. Width, length of the line and word
are the same on the two pages, so both words are settled or both are carried over. -/
theorem completeWord (h : p.Alike q) : p.completeWord.Alike q.completeWord := by
  unfold Page.completeWord
  rw [h.word_eq, h.lineLength_eq, h.width_eq]
  split
  · exact h
  · rename_i w _
    split
    · exact h.carryWord w
    · exact h.settleWord w

/-- Pages that are alike stay so when a block is closed. The blocks are the same, and so is what
closing the innermost one comes to. -/
theorem closeWord (h : p.Alike q) : p.closeWord.Alike q.closeWord := by
  have hblocks : p.blocks = q.blocks := by
    obtain ⟨_, _⟩ := h
    rfl
  unfold Page.closeWord
  rw [hblocks]
  split
  · exact h
  · rename_i outer _
    have hinner : Alike { p with blocks := outer } { q with blocks := outer } := by
      obtain ⟨hfinished, hline⟩ := h
      exact intro (p := { p with blocks := outer }) hfinished hline
    split
    · exact hinner.completeWord
    · exact hinner

/-! ### Any operations -/

/-- Pages that are alike stay alike under an operation.

**Proof sketch.** By cases on the operation. Those that change style, margins or indents leave the
lines as they are, and to be alike is a matter of the lines. -/
theorem perform (h : p.Alike q) (op : Operation) : (p.perform op).Alike (q.perform op) := by
  cases op with
  | append t => exact h.append t
  | appendSpace => exact h.appendSpace
  | breakLine => exact h.breakLine
  | lineBreak => exact h.lineBreak
  | blankLine => exact h.blankLine
  | openWord => exact h.openWord
  | closeWord => exact h.closeWord
  | popMargin =>
    obtain ⟨hfinished, hline⟩ := h
    simp only [Page.perform, popMargin?]
    split
    · exact intro hfinished hline
    · exact intro (p := { p with margins := _ }) hfinished hline
  | setStyle | plainStyle | setNoFill | setIndent | storeIndent | forgetIndent | pushMargin
  | clearMargins | sectionMargin =>
    obtain ⟨hfinished, hline⟩ := h
    exact intro (p := p.perform _) hfinished hline

/-- **Pages that are alike stay alike.** -/
theorem performAll (h : p.Alike q) (ops : List Operation) :
    (p.performAll ops).Alike (q.performAll ops) := by
  induction ops generalizing p q with
  | nil => exact h
  | cons op ops ih => exact ih (h.perform op)

end Alike

end Page

end Manpage
