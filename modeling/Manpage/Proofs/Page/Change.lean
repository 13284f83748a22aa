import Manpage.Proofs.Page.Text

/-!
# How a page changes

The operations of a page come down to a few: a fresh line, the end of a line, a text that is put on
the line or into the open word, and the opening and the completion of a word. This file says which
of them an operation amounts to, and what they do to the lines. Styles, indents and margins leave
the lines alone.

## Main definitions

* `Manpage.Page.SameLines` — two pages with the same lines.

## Main results

* `Manpage.Page.append_cases` — what appending a text outside of words amounts to.
* `Manpage.Page.append_of_word` — what it amounts to in a word.
* `Manpage.Page.append_of_isInk` — what it amounts to for ink outside of words.
* `Manpage.Page.completeWord_cases` — a complete word stays on its line or is carried over.
-/

namespace Manpage.Page

variable {p q : Page} {t : Text} {w : OpenWord} {x : Piece}

/-! ## Styles, indents and margins -/

/-- The lines, and the room for them, are the same. The pages may differ in style, indents, margins
and blocks. -/
structure SameLines (p q : Page) : Prop where
  width_eq : q.width = p.width
  finished_eq : q.finished = p.finished
  line_eq : q.line = p.line
  extent_eq : q.extent = p.extent
  word_eq : q.word = p.word

namespace SameLines

/-- Pages with the same lines have the same pieces on the current one. -/
theorem currentLine_eq (h : SameLines p q) : q.currentLine = p.currentLine := by
  rw [currentLine, currentLine, h.word_eq, h.line_eq]

/-- Pages with the same lines have the same pieces. -/
theorem pieces_eq (h : SameLines p q) : q.pieces = p.pieces := by
  rw [pieces, pieces, h.currentLine_eq, h.finished_eq]

/-- A page with the lines of one that is accounted for is accounted for. -/
theorem accounted (h : SameLines p q) (hp : p.Accounted) : q.Accounted := by
  refine ⟨?_, ?_⟩
  · rw [h.extent_eq, h.currentLine_eq]
    exact hp.extent_eq
  · rw [h.currentLine_eq]
    exact hp.pure

/-- A page with the lines of one that is trimmed is trimmed. -/
theorem trimmed (h : SameLines p q) (hp : p.Trimmed) : q.Trimmed := by
  unfold Trimmed
  rw [h.finished_eq]
  exact hp

end SameLines

/-! ## Line ends -/

/-- A fresh line closes no block. -/
@[simp] theorem blocks_startLine (p : Page) : p.startLine.blocks = p.blocks := rfl

/-- A break closes no block, even where it gives up the word of one. -/
@[simp] theorem blocks_breakLine (p : Page) : p.breakLine.blocks = p.blocks := rfl

/-- A fresh line is blank. -/
@[simp] theorem isLineBlank_startLine (p : Page) : p.startLine.isLineBlank = true := rfl

/-- Behind a break the line is blank. -/
@[simp] theorem isLineBlank_breakLine (p : Page) : p.breakLine.isLineBlank = true := rfl

/-- An empty page is trimmed, as it has no finished lines. -/
theorem trimmed_ofWidth (width : Int) : (ofWidth width).Trimmed := by
  simp [Trimmed, ofWidth]

/-- A fresh line leaves a page trimmed. -/
theorem Trimmed.startLine (h : p.Trimmed) : p.startLine.Trimmed := h

/-- A break leaves a page trimmed: the line that it finishes has lost the blanks at its end. -/
theorem Trimmed.breakLine (h : p.Trimmed) : p.breakLine.Trimmed := by
  intro line hline
  rw [finished_breakLine, List.mem_cons] at hline
  rcases hline with rfl | hline
  · exact List.dropWhile_idempotent Piece.isBlank p.currentLine
  · exact h line hline

/-! ## Texts -/

/-- Putting a text opens and closes no block. -/
@[simp] theorem blocks_put (p : Page) (t : Text) : (p.put t).blocks = p.blocks := by
  unfold put
  cases p.word <;> rfl

/-- Putting a text between words opens none. -/
theorem word_put_of_none (h : p.word = none) : (p.put t).word = none := by
  unfold put
  simp [h]

/-- Between words a text goes onto the line itself. -/
theorem line_put_of_none (h : p.word = none) :
    (p.put t).line = ⟨t, p.style.faceOf t⟩ :: p.line := by
  unfold put
  simp [h]

/-- In an open word a text joins the pieces of the word. -/
theorem word_put_of_some (h : p.word = some w) :
    (p.put t).word = some { w with pieces := ⟨t, p.style.faceOf t⟩ :: w.pieces } := by
  unfold put
  simp [h]

/-- In an open word a text stays off the line. -/
theorem line_put_of_some (h : p.word = some w) : (p.put t).line = p.line := by
  unfold put
  simp [h]

/-- Putting a text leaves a page trimmed. -/
theorem Trimmed.put (h : p.Trimmed) (t : Text) : (p.put t).Trimmed := by
  unfold Trimmed
  rw [finished_put]
  exact h

/-- Outside of words a text is put on the line where it fits or where the line is blank, and on the
next line otherwise. A space may be dropped or only end the line.

**Proof sketch.** The four results are the branches of the definition. Only the first comes with its
condition, as it is the one that can make a line too long. -/
theorem append_cases (hne : t ≠ []) (hfeed : t ≠ ['\n']) (hw : p.word = none) :
    (p.append t = p.put t ∧ (p.lineLength + t.length ≤ p.width ∨ p.isLineBlank = true)) ∨
      p.append t = p ∨ p.append t = p.breakLine ∨ p.append t = p.breakLine.put t := by
  unfold append
  rw [if_neg hne, if_neg hfeed]
  split
  · rename_i hfits
    exact Or.inl ⟨rfl, Or.inl (by simpa [hw] using hfits)⟩
  · split
    · split
      · exact Or.inr (Or.inl rfl)
      · exact Or.inr (Or.inr (Or.inl rfl))
    · split
      · rename_i hblank
        exact Or.inl ⟨rfl, Or.inr hblank⟩
      · exact Or.inr (Or.inr (Or.inr rfl))

/-- In a word nothing overflows. -/
theorem append_of_word (hne : t ≠ []) (hfeed : t ≠ ['\n']) (hw : p.word = some w) :
    p.append t = p.put t := by
  unfold append
  rw [if_neg hne, if_neg hfeed, if_pos (by simp [hw])]

/-- In a word ink is put behind what there is. -/
theorem append_ink_of_word (hne : t ≠ []) (hink : t.isInk = true) (hw : p.word = some w) :
    p.append t = p.put t :=
  append_of_word hne (Text.ne_newline_of_isInk hink) hw

/-- A text that fits stays on its line. -/
theorem append_of_fits (hne : t ≠ []) (hfeed : t ≠ ['\n'])
    (hfits : p.lineLength + t.length ≤ p.width) : p.append t = p.put t := by
  rw [append, if_neg hne, if_neg hfeed, if_pos (by simp [hfits])]

/-- Ink that is appended outside of words goes on the line, unless it has other text and would
become too long. -/
theorem append_of_isInk (hw : p.word = none) (hne : t ≠ []) (hink : t.isInk = true) :
    p.append t =
      if !p.isLineBlank && p.width < p.lineLength + t.length then p.breakLine.put t
      else p.put t := by
  have hfeed : t ≠ ['\n'] := Text.ne_newline_of_isInk hink
  have hspace : t ≠ [' '] := by
    rintro rfl
    exact absurd hink (by decide)
  rw [append, if_neg hne, if_neg hfeed, if_neg hspace, hw, Option.isSome_none, Bool.false_or]
  by_cases hfits : p.lineLength + t.length ≤ p.width
  · rw [if_pos (decide_eq_true hfits), if_neg (by simp; omega)]
  · cases hb : p.isLineBlank <;> simp [hfits, Nat.lt_of_not_le hfits]

/-! ## Words -/

/-- The opening of a word outside of others leaves the lines as they are. -/
theorem openWord_of_none (h : p.word = none) :
    p.openWord = { p with blocks := true :: p.blocks, word := some ⟨[], !p.isLineBlank⟩ } := by
  unfold openWord
  rw [h]

/-- Opening a word puts nothing on the line. -/
theorem currentLine_openWord (h : p.word = none) : p.openWord.currentLine = p.currentLine := by
  rw [openWord_of_none h, currentLine, currentLine, h]
  rfl

/-- Where a word is open, its pieces stand behind those of the line. -/
theorem currentLine_of_word (h : p.word = some w) : p.currentLine = w.pieces ++ p.line := by
  rw [currentLine, h]

/-- Where no word is open, the current line is the line itself. -/
theorem currentLine_of_none (h : p.word = none) : p.currentLine = p.line := by
  rw [currentLine, h]

/-- A word that is settled stands behind the pieces of the line, as it did while it was open. -/
@[simp] theorem currentLine_settleWord (p : Page) (w : OpenWord) :
    (p.settleWord w).currentLine = w.pieces ++ p.line := rfl

/-- A word that is carried over stands behind the padding of the new line. -/
@[simp] theorem currentLine_carryWord (p : Page) (w : OpenWord) :
    (p.carryWord w).currentLine = w.pieces ++ List.replicate p.padding Piece.space := rfl

/-- A word that is carried over leaves a line behind, finished and without the blanks at its end. -/
@[simp] theorem finished_carryWord (p : Page) (w : OpenWord) :
    (p.carryWord w).finished = p.line.dropWhile Piece.isBlank :: p.finished := rfl

/-- A complete word stays on its line, unless the line has other text and is too long. Where it
stays, one of the three reasons is given: it is empty, it is the first on its line, or it fits. -/
theorem completeWord_cases (h : p.word = some w) :
    (p.completeWord = p.settleWord w ∧
        (w.pieces = [] ∨ w.afterText = false ∨ p.lineLength ≤ p.width)) ∨
      p.completeWord = p.carryWord w := by
  unfold completeWord
  rw [h]
  simp only
  split
  · exact Or.inr rfl
  · rename_i hstays
    refine Or.inl ⟨rfl, ?_⟩
    by_cases hp : w.pieces = []
    · exact Or.inl hp
    · refine Or.inr ?_
      cases ha : w.afterText with
      | false => exact Or.inl rfl
      | true => exact Or.inr (by simpa [hp, ha] using hstays)

/-- Opening a word leaves a page accounted for. -/
theorem Accounted.openWord (h : p.Accounted) (hw : p.word = none) : p.openWord.Accounted := by
  refine ⟨?_, ?_⟩
  · rw [currentLine_openWord hw, openWord_of_none hw]
    exact h.extent_eq
  · rw [currentLine_openWord hw]
    exact h.pure

/-- Settling a word leaves a page accounted for: its pieces have been counted while it was open. -/
theorem Accounted.settleWord (h : p.Accounted) (hw : p.word = some w) :
    (p.settleWord w).Accounted := by
  refine ⟨?_, ?_⟩
  · rw [currentLine_settleWord, ← currentLine_of_word hw]
    exact h.extent_eq
  · rw [currentLine_settleWord, ← currentLine_of_word hw]
    exact h.pure

/-- Carrying a word over leaves a page accounted for: its pieces are counted again, behind the
padding of the new line. -/
theorem Accounted.carryWord (h : p.Accounted) (hw : p.word = some w) :
    (p.carryWord w).Accounted := by
  refine ⟨?_, ?_⟩
  · rw [currentLine_carryWord, Extent.addPieces_append, Extent.addPieces_replicate_space]
    rfl
  · rw [currentLine_carryWord]
    intro x hx
    rcases List.mem_append.mp hx with hx | hx
    · refine h.pure x ?_
      rw [currentLine_of_word hw]
      exact List.mem_append_left _ hx
    · obtain rfl := List.eq_of_mem_replicate hx
      exact Piece.isPure_space

/-- Completing a word leaves a page accounted for, whether the word is settled or carried over. -/
theorem Accounted.completeWord (h : p.Accounted) (hw : p.word = some w) :
    p.completeWord.Accounted := by
  rcases completeWord_cases hw with ⟨heq, -⟩ | heq
  · rw [heq]
    exact h.settleWord hw
  · rw [heq]
    exact h.carryWord hw

/-- Completing a word leaves a page trimmed, whether the word is settled or carried over. Only a
word that is carried over finishes a line, and that line loses the blanks at its end. -/
theorem Trimmed.completeWord (h : p.Trimmed) (hw : p.word = some w) : p.completeWord.Trimmed := by
  rcases completeWord_cases hw with ⟨heq, -⟩ | heq
  · rw [heq]
    exact h
  · rw [heq]
    intro line hline
    rw [finished_carryWord, List.mem_cons] at hline
    rcases hline with rfl | hline
    · exact List.dropWhile_idempotent Piece.isBlank p.line
    · exact h line hline

/-- With the completion of a word nothing comes onto a page but spaces. The spaces are those that
pad the line to which a word is carried over. -/
theorem mem_pieces_completeWord (hw : p.word = some w) (hx : x ∈ p.completeWord.pieces) :
    x = Piece.space ∨ x ∈ p.pieces := by
  rw [pieces, currentLine_of_word hw]
  rcases completeWord_cases hw with ⟨heq, -⟩ | heq
  · rw [heq] at hx
    exact Or.inr hx
  · rw [heq, pieces, currentLine_carryWord, finished_carryWord, List.flatten_cons] at hx
    simp only [List.mem_append] at hx ⊢
    rcases hx with (hx | hx) | hx | hx
    · exact Or.inr (Or.inl (Or.inl hx))
    · exact Or.inl (List.eq_of_mem_replicate hx)
    · exact Or.inr (Or.inl (Or.inr ((List.dropWhile_sublist _).subset hx)))
    · exact Or.inr (Or.inr hx)

end Manpage.Page
