import Manpage.Proofs.Page.Change

/-!
# Sheets

How lines are filled does not depend on the faces of texts, nor on the pieces that they are put
together from. A sheet keeps what it does depend on: the characters of the finished lines and of
the current one, the width, and the padding of lines. The operations of a page have counterparts on
sheets, in which a word is set at once.

## Main definitions

* `Manpage.Sheet` — the characters of lines, with `Manpage.Sheet.breakLine`,
  `Manpage.Sheet.blankLine`, `Manpage.Sheet.space` and `Manpage.Sheet.word`.
* `Manpage.Page.sheet` — the sheet of a page.
* `Manpage.Page.Sets`, `Manpage.Page.Opened` — a page between words, and one on which a word has
  been opened, with its sheet.

## Main results

* `Manpage.Page.Sets.breakLine`, `Manpage.Page.Sets.blankLine`, `Manpage.Page.Sets.appendSpace` —
  the operations of a page on its sheet.
* `Manpage.Page.Opened.append`, `Manpage.Page.Opened.appendSpace` — ink and spaces in a word.
* `Manpage.Page.Opened.closeWord` — a word that was opened, put together and closed has been
  set.
-/

namespace Manpage

/-- The characters of the finished lines, the latest first, and of the current line, with the room
for lines. -/
structure Sheet where
  width : Nat
  padding : Nat
  finished : List Text
  line : Text
deriving DecidableEq

namespace Sheet

/-- The current line started afresh. -/
def startLine (s : Sheet) : Sheet :=
  { s with line := Text.spaces s.padding }

/-- Ends the current line, without the blanks at its end. -/
def breakLine (s : Sheet) : Sheet :=
  startLine { s with finished := s.line.stripRight :: s.finished }

/-- Ends the current line and leaves an empty one; a blank line is started afresh instead. -/
def blankLine (s : Sheet) : Sheet :=
  if s.line.isBlank then s.startLine else s.breakLine.breakLine

/-- Ends so many lines. -/
def breakLines (s : Sheet) : Nat → Sheet
  | 0 => s
  | n + 1 => s.breakLine.breakLines n

/-- A space between words: none on a blank line, and none after a blank; one that does not fit ends
the line. -/
def space (s : Sheet) : Sheet :=
  if s.line.isBlank || s.line.getLast?.any isSpace then s
  else if s.line.length + 1 ≤ s.width then { s with line := s.line ++ [' '] }
  else s.breakLine

/-- A word set at once: on the next line where it overflows a line that is not blank. -/
def word (s : Sheet) (v : Text) : Sheet :=
  if v = [] then s
  else if !s.line.isBlank && s.width < s.line.length + v.length then
    { s.breakLine with line := s.breakLine.line ++ v }
  else { s with line := s.line ++ v }

/-- An empty word is not set. -/
@[simp] theorem word_nil (s : Sheet) : s.word [] = s :=
  if_pos rfl

/-- A space leaves the width of a sheet as it is. -/
@[simp] theorem width_space (s : Sheet) : s.space.width = s.width := by
  unfold space
  split
  · rfl
  · split <;> rfl

/-- A space leaves the padding of a sheet as it is. -/
@[simp] theorem padding_space (s : Sheet) : s.space.padding = s.padding := by
  unfold space
  split
  · rfl
  · split <;> rfl

/-- A word leaves the width of a sheet as it is. -/
@[simp] theorem width_word (s : Sheet) (v : Text) : (s.word v).width = s.width := by
  unfold word
  split
  · rfl
  · split <;> rfl

/-- A word leaves the padding of a sheet as it is. -/
@[simp] theorem padding_word (s : Sheet) (v : Text) : (s.word v).padding = s.padding := by
  unfold word
  split
  · rfl
  · split <;> rfl

end Sheet

namespace Page

variable {p q : Page} {t v : Text}

/-- The sheet of a page. -/
def sheet (p : Page) : Sheet where
  width := p.width
  padding := p.padding
  finished := p.finished.map Piece.lineText
  line := p.lineText

/-- A fresh line leaves the padding of a page as it is. -/
@[simp] theorem padding_startLine (p : Page) : p.startLine.padding = p.padding := rfl

/-- A break leaves the padding of a page as it is. -/
@[simp] theorem padding_breakLine (p : Page) : p.breakLine.padding = p.padding := rfl

/-- Putting a text leaves the padding of a page as it is. -/
@[simp] theorem padding_put (p : Page) (t : Text) : (p.put t).padding = p.padding := by
  unfold put
  cases p.word <;> rfl

/-! ## Line ends -/

/-- A fresh line on a page is one on its sheet. -/
@[simp] theorem sheet_startLine (p : Page) : p.startLine.sheet = p.sheet.startLine := by
  simp only [sheet, Sheet.startLine, lineText_startLine, finished_startLine, width_startLine,
    padding_startLine]

/-- A break of a page is one of its sheet: a line of pure pieces loses the blanks at its end as a
text does. -/
theorem sheet_breakLine (h : p.Accounted) : p.breakLine.sheet = p.sheet.breakLine := by
  have hline : Piece.lineText (p.currentLine.dropWhile Piece.isBlank) = p.lineText.stripRight :=
    Piece.lineText_dropWhile h.pure
  simp only [sheet, Sheet.breakLine, Sheet.startLine, lineText_breakLine, finished_breakLine,
    width_breakLine, padding_breakLine, List.map_cons, hline]

/-! ## Texts -/

/-- A text that is put on a page stands at the end of the line of its sheet, whether a word is open
or not. -/
@[simp] theorem sheet_put (p : Page) (t : Text) :
    (p.put t).sheet = { p.sheet with line := p.sheet.line ++ t } := by
  simp only [sheet, lineText_put, finished_put, width_put, padding_put]

/-- A blank piece at the end of a line is a blank at the end of its characters. The last piece is of
one sort and not empty, so that its last character stands for all of them. -/
theorem Accounted.head?_any (h : p.Accounted) :
    p.currentLine.head?.any Piece.isBlank = p.lineText.getLast?.any isSpace := by
  have hpure := h.pure
  unfold lineText
  revert hpure
  cases p.currentLine with
  | nil => exact fun _ => rfl
  | cons x xs =>
    intro hpure
    obtain ⟨hne, hsort, -⟩ := hpure x List.mem_cons_self
    rw [Piece.lineText_cons, List.getLast?_append_of_ne_nil _ hne,
      List.getLast?_eq_some_getLast hne]
    simp only [List.head?_cons, Option.any_some, Piece.isBlank]
    rcases hsort with hb | hk
    · rw [hb, Text.isBlank_iff.mp hb _ (List.getLast_mem hne)]
    · rw [Text.isBlank_eq_false_of_isInk hk hne, Text.isInk_iff.mp hk _ (List.getLast_mem hne)]

/-! ## Between words and in them -/

/-- A page between words, in which lines are filled, with its sheet. -/
structure Sets (s : Sheet) (p : Page) : Prop where
  sheet_eq : p.sheet = s
  accounted : p.Accounted
  word_eq : p.word = none
  noFill_eq : p.noFill = false

/-- A page on which a word has been opened above a sheet and has the given characters so far. -/
structure Opened (s : Sheet) (v : Text) (p : Page) : Prop where
  width_eq : p.width = s.width
  padding_eq : p.padding = s.padding
  finished_eq : p.finished.map Piece.lineText = s.finished
  line_eq : Piece.lineText p.line = s.line
  noFill_eq : p.noFill = false
  accounted : p.Accounted
  exists_word : ∃ w, p.word = some w ∧ Piece.lineText w.pieces = v ∧ w.afterText = !s.line.isBlank

variable {s : Sheet} {w : OpenWord}

/-- A page that is set between words opens a word with nothing in it. -/
theorem Sets.openWord (h : p.Sets s) : p.openWord.Opened s [] := by
  obtain ⟨rfl, haccounted, hw, hfill⟩ := h
  have hblank : p.isLineBlank = p.sheet.line.isBlank := haccounted.isLineBlank_eq
  have hline : Piece.lineText p.line = p.sheet.line := by
    rw [sheet, lineText, currentLine_of_none hw]
  have hopened := haccounted.openWord hw
  rw [openWord_of_none hw] at hopened ⊢
  exact ⟨rfl, rfl, rfl, hline, hfill, hopened, _, rfl, rfl, by rw [hblank]⟩

namespace Sets

/-- A fresh line on a page that is set is one on its sheet. -/
theorem startLine (h : p.Sets s) : p.startLine.Sets s.startLine := by
  obtain ⟨rfl, -, -, hfill⟩ := h
  exact ⟨sheet_startLine p, accounted_startLine p, rfl, hfill⟩

/-- A break of a page that is set is one of its sheet. -/
theorem breakLine (h : p.Sets s) : p.breakLine.Sets s.breakLine := by
  obtain ⟨rfl, haccounted, -, hfill⟩ := h
  exact ⟨sheet_breakLine haccounted, accounted_breakLine p, rfl, hfill⟩

/-- Breaks of a page that is set are breaks of its sheet, however many there are. -/
theorem breakLines (h : p.Sets s) (n : Nat) : (p.breakLines n).Sets (s.breakLines n) := by
  induction n generalizing p s with
  | zero => exact h
  | succ n ih => exact ih h.breakLine

/-- The line of a page that is set is blank just if that of its sheet is. -/
theorem isLineBlank_eq (h : p.Sets s) : p.isLineBlank = s.line.isBlank := by
  obtain ⟨rfl, haccounted, -, -⟩ := h
  exact haccounted.isLineBlank_eq

/-- An empty line on a page that is set is one on its sheet. -/
theorem blankLine (h : p.Sets s) : p.blankLine.Sets s.blankLine := by
  unfold Page.blankLine Sheet.blankLine
  rw [h.isLineBlank_eq]
  split
  · exact h.startLine
  · exact h.breakLine.breakLine

/-- A space that is put on the line. -/
theorem put_space (h : p.Sets s) : (p.put [' ']).Sets { s with line := s.line ++ [' '] } := by
  obtain ⟨rfl, haccounted, hw, hfill⟩ := h
  have hnoFill : (p.put [' ']).noFill = p.noFill := by
    unfold put
    simp [hw]
  exact ⟨sheet_put p [' '], haccounted.put (by decide) (Or.inl rfl), word_put_of_none hw,
    hnoFill.trans hfill⟩

/-- A space between words, on a page and on its sheet.

**Proof sketch.** Whether the line is blank, whether it ends in a blank and how long it is are the
same questions for the page and the sheet. So both drop the space, put it on the line, or end the
line. -/
theorem appendSpace (h : p.Sets s) : p.appendSpace.Sets s.space := by
  have hlast : p.currentLine.head?.any Piece.isBlank = s.line.getLast?.any isSpace := by
    obtain ⟨rfl, haccounted, -, -⟩ := h
    exact haccounted.head?_any
  have hwidth : p.width = s.width := congrArg Sheet.width h.sheet_eq
  have hlength : p.lineLength = s.line.length := by
    obtain ⟨rfl, haccounted, -, -⟩ := h
    exact haccounted.lineLength_eq
  have happend : p.append [' '] =
      if s.line.length + 1 ≤ s.width then p.put [' '] else if p.isLineBlank then p
        else p.breakLine := by
    rw [append, if_neg (by decide), if_neg (by decide), h.word_eq, hlength, hwidth]
    simp
  unfold Page.appendSpace Sheet.space
  rw [h.isLineBlank_eq, hlast, happend]
  split
  · exact h
  · rename_i hspace
    split
    · exact h.put_space
    · have hnot : ¬ p.isLineBlank = true := by
        rw [h.isLineBlank_eq]
        intro hb
        exact hspace (by rw [hb]; rfl)
      rw [if_neg hnot]
      exact h.breakLine

end Sets

namespace Opened

/-- A text that is put into the word. Finished lines and the line before the word are as they were.
-/
theorem put (h : p.Opened s v) (hne : t ≠ []) (hsort : t.isBlank = true ∨ t.isInk = true) :
    (p.put t).Opened s (v ++ t) := by
  obtain ⟨w, hw, hv, hafter⟩ := h.exists_word
  have hnoFill : (p.put t).noFill = p.noFill := by
    unfold Page.put
    simp [hw]
  refine ⟨?_, ?_, ?_, ?_, hnoFill.trans h.noFill_eq, h.accounted.put hne hsort, _,
    word_put_of_some hw, ?_, hafter⟩
  · rw [width_put, h.width_eq]
  · rw [padding_put, h.padding_eq]
  · rw [finished_put, h.finished_eq]
  · rw [line_put_of_some hw, h.line_eq]
  · rw [Piece.lineText_cons, hv]

/-- Ink that is appended to the word. -/
theorem append (h : p.Opened s v) (hne : t ≠ []) (hink : t.isInk = true) :
    (p.append t).Opened s (v ++ t) := by
  obtain ⟨w, hw, -⟩ := h.exists_word
  rw [append_ink_of_word hne hink hw]
  exact h.put hne (Or.inr hink)

/-- A space behind ink that is put into the word. Ink is at the end of the line, so the line is not
blank and does not end in a blank, and within a word nothing asks for the width. -/
theorem appendSpace (h : p.Opened s v) (hne : v ≠ []) (hink : v.isInk = true) :
    p.appendSpace.Opened s (v ++ [' ']) := by
  obtain ⟨w, hw, hv, -⟩ := h.exists_word
  have hline : p.lineText = s.line ++ v := by
    rw [lineText, currentLine_of_word hw, Piece.lineText_append, hv, h.line_eq]
  have hblank : p.isLineBlank = false := by
    rw [h.accounted.isLineBlank_eq, hline, Text.isBlank_append,
      Text.isBlank_eq_false_of_isInk hink hne, Bool.and_false]
  have hlast : p.currentLine.head?.any Piece.isBlank = false := by
    have hend : isSpace (v.getLast hne) = false := Text.isInk_iff.mp hink _ (v.getLast_mem hne)
    rw [h.accounted.head?_any, hline, List.getLast?_append_of_ne_nil _ hne,
      List.getLast?_eq_some_getLast hne, Option.any_some, hend]
  unfold Page.appendSpace
  rw [hblank, hlast, if_neg (by simp), append_of_word (by simp) (by decide) hw]
  exact h.put (by simp) (Or.inl (by decide))

/-- The pieces of an open word are pure. -/
theorem pure_pieces (h : p.Opened s v) (hw : p.word = some w) : ∀ x ∈ w.pieces, x.IsPure := by
  intro x hx
  apply h.accounted.pure
  rw [currentLine_of_word hw]
  exact List.mem_append_left _ hx

/-- The pieces before an open word are pure. -/
theorem pure_line (h : p.Opened s v) (hw : p.word = some w) : ∀ x ∈ p.line, x.IsPure := by
  intro x hx
  apply h.accounted.pure
  rw [currentLine_of_word hw]
  exact List.mem_append_right _ hx

/-- The line is that of the sheet with the word. -/
theorem lineLength_eq (h : p.Opened s v) : p.lineLength = s.line.length + v.length := by
  obtain ⟨w, hw, hv, -⟩ := h.exists_word
  rw [h.accounted.lineLength_eq, lineText, currentLine_of_word hw, Piece.lineText_append, hv,
    h.line_eq, List.length_append]

/-- A word that stays on its line. -/
theorem settleWord (h : p.Opened s v) (hw : p.word = some w) (hv : Piece.lineText w.pieces = v) :
    (p.settleWord w).Sets { s with line := s.line ++ v } := by
  refine ⟨?_, h.accounted.settleWord hw, rfl, h.noFill_eq⟩
  have hline : (p.settleWord w).lineText = s.line ++ v := by
    rw [lineText, currentLine_settleWord, Piece.lineText_append, hv, h.line_eq]
  have hpadding : (p.settleWord w).padding = s.padding := h.padding_eq
  rw [sheet, hline, hpadding]
  simp only [Page.settleWord, h.width_eq, h.finished_eq]

/-- A word that is carried over. The line before it is finished without the blanks at its end, and
the word stands behind the padding of the next one. -/
theorem carryWord (h : p.Opened s v) (hw : p.word = some w) (hv : Piece.lineText w.pieces = v) :
    (p.carryWord w).Sets { s.breakLine with line := s.breakLine.line ++ v } := by
  refine ⟨?_, h.accounted.carryWord hw, rfl, h.noFill_eq⟩
  have hline : (p.carryWord w).lineText = Text.spaces s.padding ++ v := by
    rw [lineText, currentLine_carryWord, Piece.lineText_append, Piece.lineText_replicate_space, hv,
      h.padding_eq]
  have hpadding : (p.carryWord w).padding = s.padding := h.padding_eq
  have hwidth : (p.carryWord w).width = s.width := h.width_eq
  rw [sheet, hline, hpadding, hwidth, finished_carryWord, List.map_cons,
    Piece.lineText_dropWhile (h.pure_line hw), h.line_eq, h.finished_eq]
  rfl

/-- A complete word has been set on the sheet.

**Proof sketch.** The word has no characters just when it has no pieces, and the line is as long as
that of the sheet with the word. So the page and the sheet carry the word over in the same case. -/
theorem completeWord (h : p.Opened s v) : p.completeWord.Sets (s.word v) := by
  obtain ⟨w, hw, hv, hafter⟩ := h.exists_word
  unfold Page.completeWord Sheet.word
  rw [hw]
  simp only
  by_cases hnil : v = []
  · have hempty : w.pieces = [] :=
      (Piece.lineText_eq_nil_iff (h.pure_pieces hw)).mp (hv.trans hnil)
    have hsettle := h.settleWord hw hv
    rw [hnil, List.append_nil] at hsettle
    rwa [if_pos hnil, if_neg (by simp [hempty])]
  · have hnonempty : w.pieces.isEmpty = false := by
      rw [List.isEmpty_eq_false_iff]
      intro hempty
      exact hnil (hv.symm.trans ((Piece.lineText_eq_nil_iff (h.pure_pieces hw)).mpr hempty))
    rw [if_neg hnil, hnonempty, hafter, h.lineLength_eq, h.width_eq, Bool.not_false, Bool.true_and]
    split
    · exact h.carryWord hw hv
    · exact h.settleWord hw hv

/-- **A word.** A word that was opened, put together and closed has been set on the sheet. -/
theorem closeWord (h : p.Opened s v) {outer : List Bool} (hblocks : p.blocks = true :: outer) :
    p.closeWord.Sets (s.word v) := by
  have hinner : Opened s v { p with blocks := outer } :=
    ⟨h.width_eq, h.padding_eq, h.finished_eq, h.line_eq, h.noFill_eq,
      ⟨h.accounted.extent_eq, h.accounted.pure⟩, h.exists_word⟩
  unfold Page.closeWord
  rw [hblocks]
  exact hinner.completeWord

end Opened

end Page

end Manpage
