import Manpage.Proofs.Page.Tidy

/-!
# Lines that overflow

Text comes onto a line by several ways: on its own, in a word that is open, in a word that is
carried over, as padding, and as blanks that are kept. None of them makes a line longer than the
width, unless nothing but blanks stands before it, and then the line has one unit without blanks.

A word that is open may overflow its line for the time being. Once it is complete, it either fits,
or stands on a line of its own.

## Main definitions

* `Manpage.Text.FitsIn` — a line that is no longer than the width, or has one unit only.
* `Manpage.Page.LinesFit`, `Manpage.Page.Fits` — a page of such lines, the open word apart.

## Main results

* `Manpage.Page.steady_fits` — the changes of a page keep its lines so.
* `Manpage.Page.Fits.fitsIn_of_mem_lines` — the lines of a page outside of words.
-/

namespace Manpage

variable {W : Nat} {l blanks unit : Text} {p q : Page} {w : OpenWord} {φ : WordPhase}

namespace Text

/-- A line that, without the blanks at its end, is no longer than the width, or has nothing but
blanks before one unit without blanks. -/
def FitsIn (W : Nat) (l : Text) : Prop :=
  l.stripRight.length ≤ W ∨
    ∃ blanks unit, isBlank blanks = true ∧ isInk unit = true ∧ l.stripRight = blanks ++ unit

/-- A line that is no longer than the width fits, also without its last blanks. -/
theorem fitsIn_of_length_le (h : l.length ≤ W) : l.FitsIn W :=
  Or.inl ((length_stripRight_le l).trans h)

/-- A line of blanks fits: nothing is left of it without them. -/
theorem fitsIn_of_isBlank (h : l.isBlank = true) : l.FitsIn W := by
  left
  rw [stripRight_eq_nil_iff.mpr h]
  exact Nat.zero_le W

/-- A unit alone on its line, with or without blanks after it. -/
theorem fitsIn_unit (hb : blanks.isBlank = true) (hunit : unit.stripRight.isInk = true) :
    (blanks ++ unit).FitsIn W := by
  by_cases hblank : unit.isBlank = true
  · apply fitsIn_of_isBlank
    rw [isBlank_append, hb, hblank]
    rfl
  · exact Or.inr ⟨blanks, unit.stripRight, hb, hunit, stripRight_append_of_not_isBlank _ hblank⟩

/-- A line that fits does so without the blanks at its end. -/
theorem FitsIn.stripRight (h : l.FitsIn W) : l.stripRight.FitsIn W := by
  unfold FitsIn
  rw [stripRight_stripRight]
  exact h

end Text

namespace Page

/-- A page of lines that fit, the open word apart. -/
structure LinesFit (W : Nat) (p : Page) : Prop where
  width_eq : p.width = W
  accounted : p.Accounted
  finished : ∀ line ∈ p.finished, (Piece.lineText line).FitsIn W
  line : (Piece.lineText p.line).FitsIn W

/-- A word that is one unit, but for a space at its end, and that knows whether other text stands
before it. -/
structure HoldsUnit (p : Page) (w : OpenWord) : Prop where
  word_eq : p.word = some w
  afterText_eq : w.afterText = !(Piece.lineText p.line).isBlank
  isInk : (Piece.lineText w.pieces).stripRight.isInk = true

/-- A page of lines that fit, in a phase of words. -/
def Fits (W : Nat) (φ : WordPhase) (p : Page) : Prop :=
  p.LinesFit W ∧
    match φ with
    | .outside => p.word = none
    | .inside => ∃ w, p.HoldsUnit w ∧ (Piece.lineText w.pieces).isInk = true
    | .spaced => ∃ w, p.HoldsUnit w

/-- In a word, a page holds a unit. -/
theorem Fits.holdsUnit (hφ : φ ≠ .outside) (h : p.Fits W φ) : ∃ w, p.HoldsUnit w := by
  obtain ⟨-, h⟩ := h
  cases φ with
  | outside => exact absurd rfl hφ
  | inside =>
    obtain ⟨w, hunit, -⟩ := h
    exact ⟨w, hunit⟩
  | spaced => exact h

/-! ## Outside of words -/

/-- The lines of a page fit with a fresh one, which is padded to the width at most. -/
theorem LinesFit.startLine (h : p.LinesFit W) : p.startLine.LinesFit W := by
  refine ⟨h.width_eq, accounted_startLine p, h.finished, ?_⟩
  apply Text.fitsIn_of_isBlank
  show Text.isBlank (Piece.lineText (List.replicate p.padding Piece.space)) = true
  rw [Piece.lineText_replicate_space]
  exact Text.isBlank_spaces p.padding

/-- The line that is finished. It is the current line without the word that is open and without the
blanks at its end. -/
theorem LinesFit.lineText_dropWhile (h : p.LinesFit W) :
    (Piece.lineText (p.line.dropWhile Piece.isBlank)).FitsIn W := by
  have hpure : ∀ x ∈ p.line, x.IsPure := by
    intro x hx
    apply h.accounted.pure
    unfold currentLine
    split
    · exact hx
    · exact List.mem_append_right _ hx
  rw [Piece.lineText_dropWhile hpure]
  exact h.line.stripRight

/-- The lines of a page fit behind a break, since the line that it finishes did. -/
theorem LinesFit.breakLine (h : p.LinesFit W) (hw : p.word = none) : p.breakLine.LinesFit W := by
  have hstart := h.startLine
  refine ⟨h.width_eq, accounted_breakLine p, ?_, hstart.line⟩
  intro line hline
  rw [finished_breakLine, currentLine_of_none hw, List.mem_cons] at hline
  rcases hline with rfl | hline
  · exact h.lineText_dropWhile
  · exact h.finished line hline

/-- A text that fits, or that comes onto a blank line, leaves the lines within their bounds.

**Proof sketch.** If it fits, the line is at most as long as the width. On a blank line ink is a
single unit behind blanks, which may be longer, and blanks leave the line blank. -/
theorem LinesFit.put {source t : Text} (h : p.LinesFit W) (hw : p.word = none)
    (ht : t.IsInkOf source ∨ t.IsBlankOf source)
    (hfits : p.lineLength + t.length ≤ p.width ∨ p.isLineBlank = true) : (p.put t).LinesFit W := by
  have hline : p.lineText = Piece.lineText p.line := by
    rw [lineText, currentLine_of_none hw]
  have hput : Piece.lineText (p.put t).line = Piece.lineText p.line ++ t := by
    rw [line_put_of_none hw, Piece.lineText_cons]
  have haccounted : (p.put t).Accounted := by
    rcases ht with ht | ht
    · exact h.accounted.put ht.ne_nil (Or.inr ht.isInk)
    · exact h.accounted.put ht.ne_nil (Or.inl ht.isBlank)
  refine ⟨by rw [width_put, h.width_eq], haccounted, by rw [finished_put]; exact h.finished, ?_⟩
  rw [hput]
  rcases hfits with hfits | hblank
  · rw [h.accounted.lineLength_eq, hline, h.width_eq] at hfits
    apply Text.fitsIn_of_length_le
    rwa [List.length_append]
  · rw [h.accounted.isLineBlank_eq, hline] at hblank
    rcases ht with ht | ht
    · apply Text.fitsIn_unit hblank
      rw [Text.stripRight_of_isInk ht.isInk]
      exact ht.isInk
    · apply Text.fitsIn_of_isBlank
      rw [Text.isBlank_append, hblank, ht.isBlank]
      rfl

/-! ## In words -/

/-- A text that is put into the open word. -/
theorem HoldsUnit.put {t : Text} (h : p.HoldsUnit w)
    (hink : (Piece.lineText w.pieces ++ t).stripRight.isInk = true) :
    (p.put t).HoldsUnit { w with pieces := ⟨t, p.style.faceOf t⟩ :: w.pieces } := by
  refine ⟨word_put_of_some h.word_eq, ?_, ?_⟩
  · rw [line_put_of_some h.word_eq]
    exact h.afterText_eq
  · rw [Piece.lineText_cons]
    exact hink

/-- The rest of the line is left alone by what is put into the open word. -/
theorem LinesFit.put_word {t : Text} (h : p.LinesFit W) (hw : p.word = some w) (hne : t ≠ [])
    (hsort : t.isBlank = true ∨ t.isInk = true) : (p.put t).LinesFit W := by
  refine ⟨by rw [width_put, h.width_eq], h.accounted.put hne hsort, ?_, ?_⟩
  · rw [finished_put]
    exact h.finished
  · rw [line_put_of_some hw]
    exact h.line

/-- A complete word fits on its line, or is alone on a line.

**Proof sketch.** A word stays on its line if the line is not too long, if the word is empty, or if
there are only blanks before it. Otherwise it is carried to the next line, where there is nothing
but the padding. -/
theorem LinesFit.completeWord (h : p.LinesFit W) (hunit : p.HoldsUnit w) :
    p.completeWord.LinesFit W := by
  have haccounted := h.accounted.completeWord hunit.word_eq
  have hline : p.lineText = Piece.lineText p.line ++ Piece.lineText w.pieces := by
    rw [lineText, currentLine_of_word hunit.word_eq, Piece.lineText_append]
  rcases completeWord_cases hunit.word_eq with ⟨heq, hstays⟩ | heq
  · rw [heq] at haccounted ⊢
    refine ⟨h.width_eq, haccounted, h.finished, ?_⟩
    show (Piece.lineText (w.pieces ++ p.line)).FitsIn W
    rw [Piece.lineText_append]
    rcases hstays with hnil | hafter | hlength
    · rw [hnil, Piece.lineText_nil, List.append_nil]
      exact h.line
    · have hblank : (Piece.lineText p.line).isBlank = true := by
        simpa [hafter] using hunit.afterText_eq
      exact Text.fitsIn_unit hblank hunit.isInk
    · rw [h.accounted.lineLength_eq, hline, h.width_eq] at hlength
      exact Text.fitsIn_of_length_le hlength
  · rw [heq] at haccounted ⊢
    refine ⟨h.width_eq, haccounted, ?_, ?_⟩
    · intro line hline
      rw [finished_carryWord, List.mem_cons] at hline
      rcases hline with rfl | hline
      · exact h.lineText_dropWhile
      · exact h.finished line hline
    · show (Piece.lineText (w.pieces ++ List.replicate p.padding Piece.space)).FitsIn W
      rw [Piece.lineText_append, Piece.lineText_replicate_space]
      exact Text.fitsIn_unit (Text.isBlank_spaces p.padding) hunit.isInk

/-! ## All changes -/

/-- Pages with the same lines fit both or neither. -/
theorem LinesFit.sameLines (hpq : p.SameLines q) (h : p.LinesFit W) : q.LinesFit W := by
  refine ⟨hpq.width_eq.trans h.width_eq, hpq.accounted h.accounted, ?_, ?_⟩
  · rw [hpq.finished_eq]
    exact h.finished
  · rw [hpq.line_eq]
    exact h.line

/-- Pages with the same lines hold the same units. -/
theorem HoldsUnit.sameLines (hpq : p.SameLines q) (h : p.HoldsUnit w) : q.HoldsUnit w := by
  refine ⟨hpq.word_eq.trans h.word_eq, ?_, h.isInk⟩
  rw [hpq.line_eq]
  exact h.afterText_eq

/-- An empty page fits its width. -/
theorem fits_ofWidth (width : Int) : (ofWidth width).Fits (max 1 width).toNat .outside := by
  refine ⟨⟨rfl, accounted_ofWidth width, ?_, Text.fitsIn_of_isBlank rfl⟩, rfl⟩
  simp [ofWidth]

/-- The changes of a page keep its lines within the width.

**Proof sketch.** One case for each change of a page. Between words the lines fit; while a word is
open, the line without it fits and the word is one unit, which is all that the completion needs: it
stays where it fits or stands alone, and is carried over otherwise. -/
theorem steady_fits (source : Text) (W : Nat) : Steady source (Fits W) where
  sameLines := by
    rintro φ p q hpq ⟨hlines, hword⟩
    refine ⟨hlines.sameLines hpq, ?_⟩
    cases φ with
    | outside => exact hpq.word_eq.trans hword
    | inside =>
      obtain ⟨w, hunit, hink⟩ := hword
      exact ⟨w, hunit.sameLines hpq, hink⟩
    | spaced =>
      obtain ⟨w, hunit⟩ := hword
      exact ⟨w, hunit.sameLines hpq⟩
  startLine := by
    rintro p ⟨hlines, -⟩
    exact ⟨hlines.startLine, rfl⟩
  breakLine := by
    rintro p ⟨hlines, hword⟩
    exact ⟨hlines.breakLine hword, rfl⟩
  put := by
    rintro p t hw ht hfits ⟨hlines, -⟩
    exact ⟨hlines.put hw ht hfits, word_put_of_none hw⟩
  openWord := by
    rintro p hw ⟨hlines, -⟩
    have hblank : p.isLineBlank = (Piece.lineText p.line).isBlank := by
      rw [hlines.accounted.isLineBlank_eq, lineText, currentLine_of_none hw]
    refine ⟨⟨?_, hlines.accounted.openWord hw, ?_, ?_⟩, ⟨[], !p.isLineBlank⟩, ⟨?_, ?_, rfl⟩, rfl⟩
    · rw [openWord_of_none hw]
      exact hlines.width_eq
    · rw [openWord_of_none hw]
      exact hlines.finished
    · rw [openWord_of_none hw]
      exact hlines.line
    · rw [openWord_of_none hw]
    · rw [openWord_of_none hw, hblank]
  putInk := by
    rintro p t w hw ht ⟨hlines, v, hunit, hink⟩
    have hboth : (Piece.lineText v.pieces ++ t).isInk = true := by
      rw [Text.isInk_append, hink, ht.isInk]
      rfl
    refine ⟨hlines.put_word hw ht.ne_nil (Or.inr ht.isInk), _, hunit.put ?_, ?_⟩
    · rw [Text.stripRight_of_isInk hboth]
      exact hboth
    · rw [Piece.lineText_cons]
      exact hboth
  putSpace := by
    intro φ p w hφ hw h
    obtain ⟨v, hunit⟩ := h.holdsUnit hφ
    refine ⟨⟨h.1.put_word hw (by decide) (Or.inl rfl), _, hunit.put ?_⟩, h.1, v, hunit⟩
    -- the space is no ink, but without the blanks at its end the unit is what it was
    rw [Text.stripRight_append_of_isBlank _ rfl]
    exact hunit.isInk
  completeWord := by
    intro φ p w hφ hw h
    obtain ⟨v, hunit⟩ := h.holdsUnit hφ
    refine ⟨h.1.completeWord hunit, ?_⟩
    rcases completeWord_cases hunit.word_eq with ⟨heq, -⟩ | heq
    · rw [heq]
      rfl
    · rw [heq]
      rfl

/-- The lines of a page outside of words. -/
theorem Fits.fitsIn_of_mem_lines (h : p.Fits W .outside) {line : List Piece}
    (hline : line ∈ p.lines) : (Piece.lineText line).FitsIn W := by
  obtain ⟨hlines, hword⟩ := h
  rw [lines, currentLine_of_none hword, List.mem_reverse, List.mem_cons] at hline
  rcases hline with rfl | hline
  · exact hlines.lineText_dropWhile
  · exact hlines.finished line hline

end Page

end Manpage
