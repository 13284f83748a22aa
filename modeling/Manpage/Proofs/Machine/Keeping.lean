import Manpage.Proofs.Machine.Filling
import Manpage.Proofs.Program.Verbatim

/-!
# Lines kept as they are

Where lines are kept, a blank is put on the page as it is, a source line begins a line of the page,
and an empty source line ends one. As long as no line is too long, nothing else ends a line, and the
lines of the page are those of the source.

## Main definitions

* `Manpage.Text.ended` — the finished lines once the current one is ended.
* `Manpage.Machine.Keeps`, `Manpage.Machine.KeepsOpen` — a machine that keeps lines, between words
  and in one.

## Main results

* `Manpage.Machine.Keeps.row` — the parts of a line are put on the line as they are.
* `Manpage.Machine.Keeps.copy` — lines are copied.
* `Manpage.Page.text_of_isPlain` — the text of a plain page, from its finished lines and the
  current one.
-/

namespace Manpage

/-! ## Finished lines -/

namespace Text

variable {line : Text} {done : List Text}

/-- The finished lines, the latest first, once the current line is ended; a blank one is started
afresh. -/
def ended (done : List Text) (line : Text) : List Text :=
  if line.isBlank then done else line.stripRight :: done

/-- A blank line that is ended is not kept. -/
theorem ended_of_isBlank (h : line.isBlank = true) : ended done line = done :=
  if_pos h

/-- A line with ink that is ended is kept, without the blanks at its end. -/
theorem ended_of_not_isBlank (h : line.isBlank = false) :
    ended done line = line.stripRight :: done :=
  if_neg (by simp [h])

/-- At the end of a text, a blank line is as good as none.

**Proof sketch.** By cases on the last line. If it is blank it is stripped, and the line feed before
it too. If it is not, stripping stops within it. -/
theorem stripRight_ended (done : List Text) (line : Text) :
    stripRight ((done.reverse.flatMap fun l => l ++ ['\n']) ++ line) =
      stripRight (join ['\n'] (ended done line).reverse) := by
  by_cases hb : line.isBlank = true
  · rw [ended_of_isBlank hb, stripRight_append_of_isBlank _ hb]
    cases done with
    | nil => rfl
    | cons l done =>
      rw [List.reverse_cons, join_append_singleton, List.flatMap_append, List.flatMap_singleton,
        ← List.append_assoc, stripRight_append_of_isBlank _ (by decide)]
  · have hend : ended done line = line.stripRight :: done := if_neg hb
    have hstrip : ¬ line.stripRight.isBlank = true := by
      rw [← stripRight_eq_nil_iff, stripRight_stripRight, stripRight_eq_nil_iff]
      exact hb
    rw [hend, List.reverse_cons, join_append_singleton, stripRight_append_of_not_isBlank _ hb,
      stripRight_append_of_not_isBlank _ hstrip, stripRight_stripRight]

end Text

/-! ## Pages -/

namespace Page

variable {p : Page} {t : Text} {w : OpenWord} {outer : List Bool}

/-- A word that fits stays on its line. -/
theorem completeWord_of_fits (hw : p.word = some w) (hfits : p.lineLength ≤ p.width) :
    p.completeWord = p.settleWord w := by
  have hlength : ¬ (!w.pieces.isEmpty && w.afterText && p.width < p.lineLength) = true := by
    simp only [Bool.and_eq_true, decide_eq_true_eq]
    omega
  rw [completeWord, hw]
  exact if_neg hlength

/-- Closing a block settles its word where the line is not too long. -/
theorem closeWord_of_fits (hblocks : p.blocks = true :: outer) (hw : p.word = some w)
    (hfits : p.lineLength ≤ p.width) : p.closeWord = settleWord { p with blocks := outer } w := by
  rw [closeWord, hblocks]
  exact completeWord_of_fits (p := { p with blocks := outer }) hw hfits

/-- Opening a word leaves the sheet of a page as it is. -/
theorem sheet_openWord (hw : p.word = none) : p.openWord.sheet = p.sheet := by
  have hline : p.openWord.lineText = p.lineText := by
    rw [lineText, currentLine_openWord hw, lineText]
  rw [sheet, hline, openWord_of_none hw]
  rfl

/-- Settling a word leaves the sheet of a page as it is. -/
theorem sheet_settleWord (hw : p.word = some w) :
    (settleWord { p with blocks := outer } w).sheet = p.sheet := by
  have hline : (settleWord { p with blocks := outer } w).lineText = p.lineText := by
    rw [lineText, currentLine_settleWord, lineText, currentLine_of_word hw]
  rw [sheet, hline]
  rfl

/-- The text of a plain page, from its finished lines and the current one. Plain pieces are shown as
their characters, so what is shown of a line is its text. -/
theorem text_of_isPlain (h : p.IsPlain) :
    p.text = Text.stripRight
      (Text.join ['\n'] (Text.ended (p.finished.map Piece.lineText) p.lineText).reverse) := by
  have hcurrent : Piece.showLine p.currentLine = p.lineText :=
    h.showLine_eq fun x hx => List.mem_append_left _ hx
  have hfinished : p.finished.map Piece.showLine = p.finished.map Piece.lineText := by
    refine List.map_congr_left fun line hline => h.showLine_eq fun x hx => ?_
    exact List.mem_append_right _ (List.mem_flatten.mpr ⟨line, hline, hx⟩)
  have hlines : (p.finished.reverse.flatMap fun line => Piece.showLine line ++ ['\n']) =
      (p.finished.map Piece.lineText).reverse.flatMap fun l => l ++ ['\n'] := by
    rw [← hfinished, ← List.map_reverse, List.flatMap_map]
  rw [text, shown, hcurrent, hlines, Text.stripRight_ended]

end Page

/-! ## Machines -/

namespace Machine

variable {m : Machine} {width : Nat} {done lines : List Text} {line v b : Text} {i : Instr}
  {is : List Instr} {ps : List Part}

/-- A machine that keeps lines, between words, with its output visible and no padding: the finished
lines, the latest first, and the current one. -/
structure Keeps (width : Nat) (done : List Text) (line : Text) (m : Machine) : Prop where
  sheet_eq : m.page.sheet = ⟨width, 0, done, line⟩
  accounted : m.page.Accounted
  word_eq : m.page.word = none
  noFill_eq : m.page.noFill = true
  isVisible : m.isVisible = true

/-- A machine that keeps lines and has opened a word, the characters of which stand on the current
line already. -/
structure KeepsOpen (width : Nat) (done : List Text) (line : Text) (m : Machine) : Prop where
  sheet_eq : m.page.sheet = ⟨width, 0, done, line⟩
  accounted : m.page.Accounted
  exists_word : ∃ w, m.page.word = some w
  noFill_eq : m.page.noFill = true
  isVisible : m.isVisible = true
  exists_scopes : ∃ outer, m.scopes = .word :: outer
  exists_blocks : ∃ outer, m.page.blocks = true :: outer

/-- The page of a machine that keeps lines has so many columns taken up. -/
theorem lineLength_eq_of_sheet (hsheet : m.page.sheet = ⟨width, 0, done, line⟩)
    (haccounted : m.page.Accounted) : m.page.width = width ∧ m.page.lineLength = line.length := by
  refine ⟨congrArg Sheet.width hsheet, ?_⟩
  rw [haccounted.lineLength_eq]
  exact congrArg List.length (congrArg Sheet.line hsheet)

/-! ## Words -/

/-- Opening a word on a machine that keeps lines leaves the lines as they are. The word has nothing
in it yet. -/
theorem Keeps.openWord (h : m.Keeps width done line) :
    (m.apply .openWord).KeepsOpen width done line := by
  obtain ⟨hsheet, haccounted, hw, hfill, hvisible⟩ := h
  have hnoFill : m.page.openWord.noFill = m.page.noFill :=
    congrArg Page.Settings.noFill (Page.settings_openWord m.page)
  have hopen : m.page.openWord = _ := Page.openWord_of_none hw
  exact ⟨(Page.sheet_openWord hw).trans hsheet, haccounted.openWord hw,
    ⟨_, congrArg Page.word hopen⟩, hnoFill.trans hfill, hvisible, ⟨m.scopes, rfl⟩,
    ⟨m.page.blocks, congrArg Page.blocks hopen⟩⟩

/-- A record makes no difference to a machine that keeps lines with a word open. -/
theorem KeepsOpen.record (h : m.KeepsOpen width done line) (hi : i.isRecord = true) :
    (m.apply i).KeepsOpen width done line := by
  cases i with
  | consume | note | warn =>
    exact ⟨h.sheet_eq, h.accounted, h.exists_word, h.noFill_eq, h.isVisible, h.exists_scopes,
      h.exists_blocks⟩
  | _ => exact Bool.noConfusion hi

/-- A text without blanks is put on the line. Within a word nothing asks for the width, so the line
grows by the text. -/
theorem KeepsOpen.emit (h : m.KeepsOpen width done line) (hne : v ≠ []) (hink : v.isInk = true) :
    (m.apply (.emit v)).KeepsOpen width done (line ++ v) := by
  obtain ⟨w, hw⟩ := h.exists_word
  have hemit : m.apply (.emit v) = m.onPage (·.put v) := by
    simp only [apply, output, h.isVisible, if_true, onPage, Page.append_ink_of_word hne hink hw]
  rw [hemit]
  refine ⟨?_, h.accounted.put hne (Or.inr hink), ⟨_, Page.word_put_of_some hw⟩, ?_, h.isVisible,
    h.exists_scopes, ?_⟩
  · exact (Page.sheet_put m.page v).trans (by rw [h.sheet_eq])
  · exact (congrArg Page.Settings.noFill (Page.settings_put m.page v)).trans h.noFill_eq
  · obtain ⟨outer, houter⟩ := h.exists_blocks
    exact ⟨outer, (Page.blocks_put m.page v).trans houter⟩

/-- The instructions in a word put its text on the line. By induction on the instructions, each of
which is a record or shows a part of the word. -/
theorem KeepsOpen.exec (h : m.KeepsOpen width done line) (his : IsWord v is) :
    (m.exec is).KeepsOpen width done (line ++ v) := by
  induction is generalizing m line v with
  | nil =>
    obtain rfl : [] = v := his.shown_eq
    rwa [List.append_nil]
  | cons i is ih =>
    rcases his.each i List.mem_cons_self with hrecord | ⟨t, rfl, hne, hink⟩
    · exact ih (h.record hrecord) (his.of_record hrecord)
    · obtain ⟨-, rest, rfl, hrest⟩ := his.of_emit
      have hmore := ih (h.emit hne hink) hrest
      rwa [List.append_assoc] at hmore

/-- The end of a word that fits changes nothing on the line. The word stays where it is, as the line
is no longer than the width, and its pieces are on the line already. -/
theorem KeepsOpen.closeScope (h : m.KeepsOpen width done line) (hfits : line.length ≤ width) :
    (m.apply .closeScope).Keeps width done line := by
  obtain ⟨w, hw⟩ := h.exists_word
  obtain ⟨scopes, hscopes⟩ := h.exists_scopes
  obtain ⟨blocks, hblocks⟩ := h.exists_blocks
  obtain ⟨hwidth, hlength⟩ := lineLength_eq_of_sheet h.sheet_eq h.accounted
  have hclose : m.page.closeWord = Page.settleWord { m.page with blocks := blocks } w :=
    Page.closeWord_of_fits hblocks hw (by rw [hwidth, hlength]; exact hfits)
  have happly : m.apply .closeScope =
      { m with scopes := scopes, page := Page.settleWord { m.page with blocks := blocks } w } := by
    rw [apply_closeScope_of_word hscopes, hclose]
  have hinner : Page.Accounted { m.page with blocks := blocks } :=
    ⟨h.accounted.extent_eq, h.accounted.pure⟩
  rw [happly]
  exact ⟨(Page.sheet_settleWord hw).trans h.sheet_eq, hinner.settleWord hw, rfl, h.noFill_eq,
    h.isVisible⟩

namespace Keeps

/-- Visible output changes the page. -/
theorem output_eq (h : m.Keeps width done line) (f : Page → Page) : m.output f = m.onPage f :=
  output_of_isVisible h.isVisible f

/-- A record makes no difference to a machine that keeps lines. -/
theorem record (h : m.Keeps width done line) (hi : i.isRecord = true) :
    (m.apply i).Keeps width done line := by
  cases i with
  | consume | note | warn =>
    exact ⟨h.sheet_eq, h.accounted, h.word_eq, h.noFill_eq, h.isVisible⟩
  | _ => exact Bool.noConfusion hi

/-! ## Line ends -/

/-- A fresh line on a machine that keeps lines is empty: there is no padding. -/
theorem startLine (h : m.Keeps width done line) :
    (m.onPage Page.startLine).Keeps width done [] := by
  refine ⟨(Page.sheet_startLine m.page).trans ?_, Page.accounted_startLine m.page, rfl, h.noFill_eq,
    h.isVisible⟩
  rw [h.sheet_eq]
  rfl

/-- A break keeps the current line, without the blanks at its end. -/
theorem breakLine (h : m.Keeps width done line) :
    (m.onPage Page.breakLine).Keeps width (line.stripRight :: done) [] := by
  refine ⟨(Page.sheet_breakLine h.accounted).trans ?_, Page.accounted_breakLine m.page, rfl,
    h.noFill_eq, h.isVisible⟩
  rw [h.sheet_eq]
  rfl

/-- A line end: a blank line is started afresh. Any other line is finished without the blanks at its
end. -/
theorem lineBreak (h : m.Keeps width done line) :
    (m.onPage Page.lineBreak).Keeps width (Text.ended done line) [] := by
  have hblank : m.page.isLineBlank = line.isBlank := by
    rw [h.accounted.isLineBlank_eq]
    exact congrArg Text.isBlank (congrArg Sheet.line h.sheet_eq)
  have heq : m.onPage Page.lineBreak =
      if line.isBlank then m.onPage Page.startLine else m.onPage Page.breakLine := by
    rw [onPage, Page.lineBreak, hblank]
    split <;> rfl
  rw [heq]
  unfold Text.ended
  split
  · exact h.startLine
  · exact h.breakLine

/-- A source line begins a line of the page. -/
theorem beginLine (h : m.Keeps width done line) :
    (m.apply .beginLine).Keeps width (Text.ended done line) [] := by
  have heq : m.apply .beginLine = m.onPage Page.lineBreak := by
    simp only [apply, h.noFill_eq, if_true, h.output_eq]
  rw [heq]
  exact h.lineBreak

/-- An empty source line leaves an empty line. -/
theorem emptyLine (h : m.Keeps width done []) :
    (m.apply .emptyLine).Keeps width ([] :: done) [] := by
  have heq : m.apply .emptyLine = m.onPage Page.breakLine := by
    simp only [apply, h.noFill_eq, if_true, h.output_eq]
  rw [heq]
  exact h.breakLine

/-- Where lines are kept, the end of a source line does nothing. -/
theorem endLine (h : m.Keeps width done line) : m.apply .endLine = m := by
  simp only [apply, h.noFill_eq, if_true]

/-! ## Lines -/

/-- A blank is put on the line as it is. It fits, and it is no line feed, so it breaks no line. -/
theorem blank (h : m.Keeps width done line) (hne : b ≠ []) (hb : b.isBlank = true)
    (hfeed : '\n' ∉ b) (hfits : line.length + b.length ≤ width) :
    (m.apply (.blank b)).Keeps width done (line ++ b) := by
  obtain ⟨hwidth, hlength⟩ := lineLength_eq_of_sheet h.sheet_eq h.accounted
  have hfeed' : b ≠ ['\n'] := by
    rintro rfl
    exact hfeed List.mem_cons_self
  have hput : m.page.append b = m.page.put b :=
    Page.append_of_fits hne hfeed' (by rw [hwidth, hlength]; exact hfits)
  have heq : m.apply (.blank b) = m.onPage (·.put b) := by
    simp only [apply, h.noFill_eq, if_true, h.output_eq, onPage, hput]
  rw [heq]
  refine ⟨?_, h.accounted.put hne (Or.inl hb), Page.word_put_of_none h.word_eq, ?_, h.isVisible⟩
  · exact (Page.sheet_put m.page b).trans (by rw [h.sheet_eq])
  · exact (congrArg Page.Settings.noFill (Page.settings_put m.page b)).trans h.noFill_eq

/-- A word is put on the line as it is. -/
theorem word (h : m.Keeps width done line) (his : IsWord v is)
    (hfits : line.length + v.length ≤ width) :
    (m.exec (.openWord :: is ++ [.closeScope])).Keeps width done (line ++ v) := by
  rw [exec_append, exec_cons]
  exact (h.openWord.exec his).closeScope (by rwa [List.length_append])

/-- The parts of a line are put on the line as they are.

**Proof sketch.** By induction on the parts. Each is put behind the others, where it fits since all
of them do. -/
theorem row (h : m.Keeps width done line) (his : IsRow ps is)
    (hblanks : ∀ b, Part.blank b ∈ ps → b ≠ [] ∧ b.isBlank = true ∧ '\n' ∉ b)
    (hfits : line.length + (ps.flatMap Part.text).length ≤ width) :
    (m.exec is).Keeps width done (line ++ ps.flatMap Part.text) := by
  induction his generalizing m line with
  | done =>
    rw [exec_cons, h.endLine]
    simpa using h
  | @blank t b ps is _ ih =>
    rw [List.flatMap_cons, List.length_append, ← Nat.add_assoc] at hfits
    rw [List.flatMap_cons, ← List.append_assoc]
    obtain ⟨hne, hb, hfeed⟩ := hblanks b List.mem_cons_self
    have hput := (h.record (i := .consume t) rfl).blank hne hb hfeed
      (Nat.le_trans (Nat.le_add_right _ _) hfits)
    exact ih hput (fun b hb => hblanks b (List.mem_cons_of_mem _ hb))
      (by rw [List.length_append]; exact hfits)
  | @word v ps is js hword _ ih =>
    rw [List.flatMap_cons, List.length_append, ← Nat.add_assoc] at hfits
    rw [List.flatMap_cons, ← List.append_assoc]
    have happend : Instr.openWord :: is ++ .closeScope :: js =
        (.openWord :: is ++ [.closeScope]) ++ js := by simp
    have hput := h.word hword (Nat.le_trans (Nat.le_add_right _ _) hfits)
    rw [happend, exec_append]
    exact ih hput (fun b hb => hblanks b (List.mem_cons_of_mem _ hb))
      (by rw [List.length_append]; exact hfits)

end Keeps

/-- The blanks of a line. They are its blank chunks, and no line end is in a line. -/
theorem blanks_ofLine (hends : ∀ c ∈ line, isLineEnd c = false) :
    ∀ b, Part.blank b ∈ Part.ofLine line → b ≠ [] ∧ b.isBlank = true ∧ '\n' ∉ b := by
  intro b hmem
  obtain ⟨m, hm, heq⟩ := List.mem_map.mp hmem
  unfold Part.ofChunk at heq
  split at heq
  · rename_i hblank
    obtain rfl := Part.blank.inj heq
    refine ⟨List.ne_nil_of_mem_splitBy hm, hblank, fun hfeed => ?_⟩
    exact absurd (hends _ (mem_of_mem_splitBy hm hfeed)) (by decide)
  · exact absurd heq (by simp)

/-- **Lines are copied.** The finished lines of the page grow by the lines of the source, without
the blanks at their ends.

**Proof sketch.** The beginning of a source line ends the current line unless that is blank. So what
stands on a line is finished before the next line begins, and an empty line, which leaves a blank
line behind, is not finished twice. -/
theorem Keeps.copy (h : m.Keeps width done line) (his : IsCopy lines is)
    (hends : ∀ l ∈ lines, ∀ c ∈ l, isLineEnd c = false) (hfits : ∀ l ∈ lines, l.length ≤ width) :
    ∃ done' line', (m.exec is).Keeps width done' line' ∧
      Text.ended done' line' = (lines.map Text.stripRight).reverse ++ Text.ended done line := by
  induction his generalizing m done line with
  | nil => exact ⟨done, line, h, rfl⟩
  | @blank t l lines is hblank _ ih =>
    have hempty := (h.beginLine.record (i := .consume t) rfl).emptyLine
    obtain ⟨done', line', hkeeps, hended⟩ := ih hempty
      (fun a ha => hends a (List.mem_cons_of_mem l ha))
      (fun a ha => hfits a (List.mem_cons_of_mem l ha))
    refine ⟨done', line', hkeeps, ?_⟩
    rw [hended, Text.ended_of_isBlank Text.isBlank_nil, List.map_cons, List.reverse_cons,
      Text.stripRight_eq_nil_iff.mpr hblank, List.append_assoc, List.singleton_append]
  | @row l lines is js hblank hrow _ ih =>
    have htext := Part.flatMap_text_ofLine l
    have hline := h.beginLine.row hrow (blanks_ofLine (hends l List.mem_cons_self))
      (by rw [htext]; simpa using hfits l List.mem_cons_self)
    rw [htext, List.nil_append] at hline
    obtain ⟨done', line', hkeeps, hended⟩ := ih hline
      (fun a ha => hends a (List.mem_cons_of_mem l ha))
      (fun a ha => hfits a (List.mem_cons_of_mem l ha))
    refine ⟨done', line', ?_, ?_⟩
    · rw [List.cons_append, exec_cons, exec_append]
      exact hkeeps
    · rw [hended, Text.ended_of_not_isBlank hblank, List.map_cons, List.reverse_cons,
        List.append_assoc, List.singleton_append]

end Machine

/-! ## The instructions for a copy -/

/-- The instructions for a row are plain. By induction on the parts. -/
theorem IsRow.isPlain {ps : List Part} {is : List Instr} (h : IsRow ps is) :
    ∀ i ∈ is, i.isPlain = true := by
  induction h with
  | done => simp [Instr.isPlain, Instr.isSafe, Instr.setsFont]
  | blank t b _ ih => simpa [Instr.isPlain, Instr.isSafe, Instr.setsFont] using ih
  | word hword _ ih =>
    have his := hword.isPlain
    simp only [List.cons_append, List.mem_cons, List.mem_append]
    rintro i (rfl | hi | rfl | hi) <;> first | exact his i hi | exact ih i hi | rfl

/-- The instructions for a copy of lines are plain. By induction on the lines. -/
theorem IsCopy.isPlain {lines : List Text} {is : List Instr} (h : IsCopy lines is) :
    ∀ i ∈ is, i.isPlain = true := by
  induction h with
  | nil => simp
  | blank t _ _ ih => simpa [Instr.isPlain, Instr.isSafe, Instr.setsFont] using ih
  | row _ hrow _ ih =>
    simp only [List.cons_append, List.mem_cons, List.mem_append]
    rintro i (rfl | hi | hi)
    · rfl
    · exact hrow.isPlain i hi
    · exact ih i hi

end Manpage
