import Manpage.Proofs.Machine.Hidden
import Manpage.Proofs.Machine.Tagged
import Manpage.Proofs.Page.Assembled
import Manpage.Proofs.Program.Title

/-!
# Headings on a page

In a whole document all forms of a heading put the same on a page. A word of one text is set as the
text alone, and behind it a space between words is a space like others, whether lines are filled or
not. So each form comes down to the words of the title, appended with spaces between them, and these
are set on lines of their own.

## Main definitions

* `Manpage.Page.Rests` — a page between words, whether lines are filled or not.
* `Manpage.Page.phrase` — words appended with spaces between them.

## Main results

* `Manpage.Page.closeWord_append_openWord` — a word of one text.
* `Manpage.Page.Rests.phrase` — words with spaces between them, as they are set on lines.
* `Manpage.Machine.exec_shown` — a title in any form.
* `Manpage.Machine.exec_heading` — a heading in any form.
-/

namespace Manpage

variable {p : Page} {s : Sheet} {v w : Text} {rest base lines : List Text} {m n : Machine}
  {is : List Instr} {form : Title.Form} {title : Title}

/-! ## Words with spaces between them -/

namespace Sheet

/-- A line with a word behind it ends in ink. -/
theorem endsInInk_word (s : Sheet) (hne : w ≠ []) (hink : w.isInk = true) :
    EndsInInk (s.word w).line := by
  unfold word
  rw [if_neg hne]
  split <;> exact endsInInk_append _ hne hink

/-- A space at the end makes no difference to the lines, once the current one is ended. It is
stripped at the end of the line, or it has ended the line itself. -/
theorem ended_space (s : Sheet) :
    Text.ended s.space.finished s.space.line = Text.ended s.finished s.line := by
  unfold space
  split
  · rfl
  · rename_i hspace
    have hblank : s.line.isBlank = false := by
      by_contra hb
      exact hspace (by simp [hb])
    rw [Text.ended_of_not_isBlank hblank]
    split
    · have hmore : (s.line ++ [' ']).isBlank = false := by
        rw [Text.isBlank_append, hblank, Bool.false_and]
      rw [Text.ended_of_not_isBlank hmore, Text.stripRight_append_of_isBlank _ rfl]
    · exact Text.ended_of_isBlank (Text.isBlank_spaces s.padding)

end Sheet

namespace Page

/-- A page between words, with its sheet, whether lines are filled or not. -/
structure Rests (s : Sheet) (p : Page) : Prop where
  sheet_eq : p.sheet = s
  accounted : p.Accounted
  word_eq : p.word = none

/-- **A word of one text** is set as the text alone, in another word or outside of words.

**Proof sketch.** In another word the block opens no word of its own, and the text joins that word.
Outside of words, the word is opened, filled and completed, and completing a word asks the same
question as appending its text. -/
theorem closeWord_append_openWord (p : Page) (hne : w ≠ []) (hink : w.isInk = true) :
    (p.openWord.append w).closeWord = p.append w := by
  cases hw : p.word with
  | some v =>
    have hopen : p.openWord = { p with blocks := false :: p.blocks } := by
      rw [openWord, hw]
    have hword : p.openWord.word = some v := by rw [hopen, hw]
    rw [append_ink_of_word hne hink hword, append_ink_of_word hne hink hw, hopen]
    simp only [closeWord, put, hw]
    rfl
  | none =>
    have hall : ∀ t ∈ [w], t.isInk = true := by simpa using hink
    have hblock : p.performAll [.openWord, .append w, .closeWord] =
        (p.holding [w]).completeWord :=
      performAll_block hw (.append hne hink .nil) (by simp [Operation.isStyling])
    have hput : ∀ q : Page, q.word = none → { q with
        extent := q.extent.addPieces (piecesOf q.style [w])
        line := piecesOf q.style [w] ++ q.line } = q.put w :=
      fun q hq => (put_of_none hq).symm
    rw [completeWord_holding hw (List.cons_ne_nil _ _) hall, List.flatten_singleton] at hblock
    rw [append_of_isInk hw hne hink, ← hput p hw, ← hput p.breakLine rfl]
    exact hblock

namespace Rests

/-- A word. The page and its sheet ask the same: whether the line is blank, and whether the word
fits. -/
theorem append (h : p.Rests s) (hne : w ≠ []) (hink : w.isInk = true) :
    (p.append w).Rests (s.word w) := by
  obtain ⟨rfl, haccounted, hw⟩ := h
  have hline : p.lineText = p.sheet.line := rfl
  have hwidth : p.width = p.sheet.width := rfl
  rw [append_of_isInk hw hne hink, Sheet.word, if_neg hne, haccounted.isLineBlank_eq,
    haccounted.lineLength_eq, hline, hwidth]
  split
  · refine ⟨?_, (accounted_breakLine p).put hne (Or.inr hink), word_put_of_none rfl⟩
    rw [sheet_put, sheet_breakLine haccounted]
  · exact ⟨sheet_put p w, haccounted.put hne (Or.inr hink), word_put_of_none hw⟩

/-- A space between words. Whether lines are kept as they are makes no difference to it outside of
words. -/
theorem appendSpace (h : p.Rests s) : p.appendSpace.Rests s.space := by
  obtain ⟨rfl, haccounted, hw⟩ := h
  have hsets : Sets p.sheet { p with noFill := false } :=
    ⟨rfl, ⟨haccounted.extent_eq, haccounted.pure⟩, hw, rfl⟩
  have hfilled : ({ p with noFill := false } : Page).appendSpace =
      { p.appendSpace with noFill := false } := by
    obtain ⟨width, style, noFill, indent, stored, margins, finished, line, extent, word, blocks⟩ :=
      p
    obtain rfl : word = none := hw
    unfold Page.appendSpace Page.append
    split_ifs <;> first | rfl | contradiction
  have hspace := hsets.appendSpace
  rw [hfilled] at hspace
  exact ⟨hspace.sheet_eq, ⟨hspace.accounted.extent_eq, hspace.accounted.pure⟩, hspace.word_eq⟩

/-- Behind ink, a space between words is a space like others. The line is not blank then, and does
not end in a blank. -/
theorem appendSpace_append (h : p.Rests s) (hne : w ≠ []) (hink : w.isInk = true) :
    (p.append w).appendSpace = (p.append w).append [' '] := by
  obtain ⟨hsheet, haccounted, -⟩ := h.append hne hink
  have hline : (p.append w).lineText = (s.word w).line := congrArg Sheet.line hsheet
  have hends := s.endsInInk_word hne hink
  have hblank : (p.append w).isLineBlank = false := by
    rw [haccounted.isLineBlank_eq, hline]
    simpa using hends.not_blank
  have hlast : (p.append w).currentLine.head?.any Piece.isBlank = false := by
    rw [haccounted.head?_any, hline]
    exact hends.getLast?_any
  rw [Page.appendSpace, hblank, hlast, if_neg (by simp)]

end Rests

/-- Words appended with spaces between them. -/
def phrase (p : Page) (w : Text) (rest : List Text) : Page :=
  rest.foldl (fun p v => p.appendSpace.append v) (p.append w)

/-- A phrase leaves the settings as they are. By induction on its words. -/
@[simp] theorem settings_phrase (p : Page) (w : Text) (rest : List Text) :
    (p.phrase w rest).settings = p.settings := by
  have hrest : ∀ q : Page,
      (rest.foldl (fun p v => p.appendSpace.append v) q).settings = q.settings := by
    induction rest with
    | nil => exact fun _ => rfl
    | cons v rest ih =>
      intro q
      rw [List.foldl_cons, ih, settings_append, settings_appendSpace]
  rw [phrase, hrest, settings_append]

/-- **Words with spaces between them** are set on lines one after another.

**Proof sketch.** By induction on the words. Each is set on the line that is ready for it, and the
space behind it makes the line ready for the next. -/
theorem Rests.phrase (h : p.Rests s) (hready : s.Ready base lines)
    (hne : ∀ v ∈ w :: rest, v ≠ []) (hink : ∀ v ∈ w :: rest, v.isInk = true) :
    ∃ r, (p.phrase w rest).Rests r ∧
      r.space.Ready base ((w :: rest).foldl (Text.addWord s.padding s.width) lines) := by
  induction rest generalizing p s w lines with
  | nil =>
    have hw := hne w List.mem_cons_self
    have hwink := hink w List.mem_cons_self
    exact ⟨s.word w, h.append hw hwink, hready.word hw hwink⟩
  | cons v rest ih =>
    obtain ⟨hw, hne⟩ := List.forall_mem_cons.mp hne
    obtain ⟨hwink, hink⟩ := List.forall_mem_cons.mp hink
    have hmore := ih (h.append hw hwink).appendSpace (hready.word hw hwink) hne hink
    simp only [Sheet.padding_space, Sheet.padding_word, Sheet.width_space, Sheet.width_word]
      at hmore
    exact hmore

/-! ## Lines that are ended -/

/-- What is written on a page does not change with the end of its line. -/
theorem written_lineBreak (p : Page) : p.lineBreak.written = p.written := by
  have hblank : p.lineBreak.isLineBlank = true := by
    unfold lineBreak
    split <;> rfl
  rw [written, written, lineBreak, if_pos hblank]
  rfl

/-- Styles, indents and margins make no difference to the lines. -/
theorem SameLines.written_eq {q : Page} (h : SameLines p q) : q.written = p.written := by
  have hblank : q.isLineBlank = p.isLineBlank := by rw [isLineBlank, isLineBlank, h.extent_eq]
  unfold written lineBreak
  rw [hblank]
  split
  · exact congrArg List.reverse h.finished_eq
  · rw [finished_breakLine, finished_breakLine, h.currentLine_eq, h.finished_eq]

/-- The lines of a page between words, with a space at the end or none. The space is stripped when
the line is ended. -/
theorem Rests.map_written (h : p.Rests s) (hready : s.space.Ready base lines) :
    p.written.map Piece.lineText = (lines ++ base).reverse := by
  obtain ⟨rfl, haccounted, -⟩ := h
  have hfilled : Accounted { p with noFill := false } := ⟨haccounted.extent_eq, haccounted.pure⟩
  have hended := congrArg Sheet.finished (hfilled.sets_lineBreak rfl).sheet_eq
  have hwritten : Page.written { p with noFill := false } = p.written :=
    SameLines.written_eq ⟨rfl, rfl, rfl, rfl, rfl⟩
  have hlines : Text.ended (p.finished.map Piece.lineText) p.lineText = lines ++ base := by
    rw [← hready.ended_eq, Sheet.ended_space]
    rfl
  rw [← hwritten, written, List.map_reverse, ← hlines]
  exact congrArg List.reverse hended

end Page

/-! ## Records -/

/-- Records cannot fail. -/
theorem Instr.isSafe_of_withoutRecords {is : List Instr}
    (h : ∀ i ∈ withoutRecords is, i.isSafe = true) :
    ∀ i ∈ is, i.isSafe = true := by
  intro i hi
  by_cases hrecord : i.isRecord = true
  · exact isSafe_of_isPlain (isPlain_of_isRecord hrecord)
  · exact h i (List.mem_filter.mpr ⟨hi, by simp [hrecord]⟩)

namespace Machine

/-- Records make no difference to anything else. By induction: a record changes nothing but the
records, and the other instructions do not read them. -/
theorem unrecorded_exec_withoutRecords (h : m.unrecorded = n.unrecorded) (is : List Instr) :
    (m.exec is).unrecorded = (n.exec (withoutRecords is)).unrecorded := by
  induction is generalizing m n with
  | nil => exact h
  | cons i is ih =>
    by_cases hi : i.isRecord = true
    · have hskip : withoutRecords (i :: is) = withoutRecords is := by simp [withoutRecords, hi]
      have hsame : (m.apply i).unrecorded = m.unrecorded := by
        cases i with
        | consume | note | warn => rfl
        | _ => exact Bool.noConfusion hi
      rw [hskip, exec_cons]
      exact ih (hsame.trans h)
    · have hkeep : withoutRecords (i :: is) = i :: withoutRecords is := by
        simp [withoutRecords, hi]
      rw [hkeep, exec_cons, exec_cons]
      exact ih (unrecorded_apply_congr h rfl)

/-! ## Titles -/

/-- A unit of one text does what the text does. The word is settled as it is, or carried over, just
where the text by itself would be. -/
theorem exec_unit (hvisible : m.isVisible = true) (hne : w ≠ []) (hink : w.isInk = true) :
    m.exec [.openWord, .emit w, .closeScope] = m.onPage (·.append w) := by
  have hemit : (m.apply .openWord).apply (.emit w) =
      ((m.onPage fun p => p.openWord.append w).enter .word) := by
    have hshown : (m.apply .openWord).isVisible = true := hvisible
    exact output_of_isVisible hshown (·.append w)
  have hpage := m.page.closeWord_append_openWord hne hink
  rw [exec_cons, exec_cons, exec_cons, exec_nil, hemit, apply_closeScope_of_word rfl]
  exact congrArg (fun page => { m with page := page }) hpage

/-- A word of a title, in any form. -/
theorem exec_word (form : Title.Form) (hvisible : m.isVisible = true) (hne : w ≠ [])
    (hink : w.isInk = true) : m.exec (form.word w) = m.onPage (·.append w) := by
  cases form with
  | quoted => exact output_of_isVisible hvisible (·.append w)
  | bare | nextLine => exact exec_unit hvisible hne hink

/-- What separates the words of a title, in any form, is a space between words. Where lines are kept
as they are, a blank text of one space is put behind the word, as a space is. -/
theorem apply_separator (form : Title.Form) (hvisible : m.isVisible = true)
    (hpage : m.page.Rests s) (hne : w ≠ []) (hink : w.isInk = true) :
    (m.onPage (·.append w)).apply form.separator =
      m.onPage fun p => (p.append w).appendSpace := by
  have hshown : (m.onPage (·.append w)).isVisible = true := hvisible
  have hspace : (m.onPage (·.append w)).onPage Page.appendSpace =
      m.onPage fun p => (p.append w).appendSpace := rfl
  have hblank : (m.onPage (·.append w)).apply (.blank [' ']) =
      m.onPage fun p => (p.append w).appendSpace := by
    simp only [apply, output, hshown, if_true]
    rw [← hspace]
    unfold onPage
    split
    · rw [hpage.appendSpace_append hne hink]
    · rfl
  cases form with
  | bare => exact (output_of_isVisible hshown Page.appendSpace).trans hspace
  | quoted | nextLine => exact hblank

/-- The words of a title, in any form, are appended with spaces between them.

**Proof sketch.** By induction on the words. Whether a form sets each of them in a word of its own
or not, they are appended as texts, and what separates them is a space. -/
theorem exec_words (form : Title.Form) (hvisible : m.isVisible = true) (hpage : m.page.Rests s)
    (hne : ∀ v ∈ w :: rest, v ≠ []) (hink : ∀ v ∈ w :: rest, v.isInk = true) :
    m.exec (form.word w ++ rest.flatMap fun v => form.separator :: form.word v) =
      m.onPage (·.phrase w rest) := by
  induction rest generalizing m s w with
  | nil =>
    rw [List.flatMap_nil, List.append_nil]
    exact exec_word form hvisible (hne w List.mem_cons_self)
      (hink w List.mem_cons_self)
  | cons v rest ih =>
    obtain ⟨hw, hne⟩ := List.forall_mem_cons.mp hne
    obtain ⟨hwink, hink⟩ := List.forall_mem_cons.mp hink
    have hnext : (m.onPage fun p => (p.append w).appendSpace).page.Rests (s.word w).space :=
      (hpage.append hw hwink).appendSpace
    have hmore := ih (m := m.onPage fun p => (p.append w).appendSpace) hvisible hnext hne hink
    rw [List.flatMap_cons, exec_append, exec_word form hvisible hw hwink,
      List.cons_append, exec_cons, apply_separator form hvisible hpage hw hwink, hmore]
    rfl

/-- **A title in any form** is its words with spaces between them. -/
theorem exec_shown (form : Title.Form) (title : Title) (hvisible : m.isVisible = true)
    (hpage : m.page.Rests s) :
    m.exec (form.shown title) =
      (m.onPage (·.phrase title.first title.rest)).exec form.last := by
  rw [Title.Form.shown, exec_append, exec_words form hvisible hpage title.ne_nil title.isInk]

/-- The end of a title adds a space, if anything. That is the space for the end of a line of text,
where lines are filled. -/
theorem exists_exec_last (form : Title.Form) (hvisible : m.isVisible = true)
    (hpage : m.page.Rests s) (hready : s.space.Ready base lines) :
    ∃ q r, m.exec form.last = { m with page := q } ∧ q.settings = m.page.settings ∧
      q.Rests r ∧ r.space.Ready base lines := by
  have hnone : ∃ q r, m = { m with page := q } ∧ q.settings = m.page.settings ∧ q.Rests r ∧
      r.space.Ready base lines := ⟨m.page, s, rfl, rfl, hpage, hready⟩
  cases form with
  | bare | quoted => exact hnone
  | nextLine =>
    show ∃ q r, (if m.page.noFill then m else m.output Page.appendSpace) = _ ∧ _
    split
    · exact hnone
    · refine ⟨m.page.appendSpace, s.space, output_of_isVisible hvisible Page.appendSpace,
        Page.settings_appendSpace _, hpage.appendSpace, ?_⟩
      rwa [hready.space]

end Machine

/-! ## Headings -/

namespace Page

/-- A fresh page without a margin, in the font of headings. -/
def headed (p : Page) : Page :=
  startLine { p with
    finished := []
    margins := []
    indent := 0
    style := p.style.set .bold true }

/-- The lines that an empty line before a heading leaves, the latest first: there is none behind a
line that is blank, or one that has been kept as it is. -/
def aboveHeading (p : Page) : List (List Piece) :=
  (if p.noFill || p.isLineBlank then [] else [[]]) ++ p.lineBreak.finished

/-- The lines of a heading are not padded. -/
theorem padding_headed (p : Page) : p.headed.padding = 0 := by
  have hpadding : p.headed.padding = (min (0 + 0 : Int) p.width).toNat := rfl
  rw [hpadding]
  omega

/-- The page of a heading is an empty sheet between words, without padding. -/
theorem rests_headed (p : Page) : p.headed.Rests ⟨p.width, 0, [], []⟩ := by
  have hline : p.headed.lineText = Text.spaces p.headed.padding := lineText_startLine _
  refine ⟨?_, accounted_startLine _, rfl⟩
  rw [sheet, hline, padding_headed]
  rfl

/-- A heading begins on a page without a margin. -/
def cleared (p : Page) : Page :=
  { p with margins := [], indent := 0 }

/-- The empty line before a heading, where lines are filled.

**Proof sketch.** By cases on whether the line is blank. If it is not, it is ended, and another one
is left empty; what is finished then is what stands above the heading, and the fresh line has no
padding, as the margins are cleared. -/
theorem blankLine_cleared (p : Page) (hfill : p.noFill = false) :
    p.cleared.blankLine.setStyle .bold true = p.headed.onto p.aboveHeading := by
  have habove : p.aboveHeading =
      (if p.isLineBlank then [] else [[]]) ++ p.lineBreak.finished := by
    rw [aboveHeading, hfill, Bool.false_or]
  have hsame : p.cleared.isLineBlank = p.isLineBlank := rfl
  rw [habove]
  unfold blankLine lineBreak
  rw [hsame]
  split
  · rfl
  · have hempty : p.cleared.breakLine.currentLine.dropWhile Piece.isBlank = [] := by
      have hline : p.cleared.breakLine.currentLine =
          List.replicate p.headed.padding Piece.space := rfl
      rw [hline, padding_headed]
      rfl
    have hbreak : p.cleared.breakLine.breakLine =
        startLine { p.cleared.breakLine with finished := [] :: p.cleared.breakLine.finished } := by
      rw [breakLine, hempty]
    rw [hbreak]
    rfl

/-- A line that is kept as it is has been ended before a heading. So the current line is blank, and
the empty line starts it again. -/
theorem blankLine_cleared_lineBreak (p : Page) (hfill : p.noFill = true) :
    p.lineBreak.cleared.blankLine.setStyle .bold true = p.headed.onto p.aboveHeading := by
  have habove : p.aboveHeading = p.lineBreak.finished := by
    rw [aboveHeading, hfill, Bool.true_or, if_pos rfl, List.nil_append]
  have hblank : p.lineBreak.cleared.isLineBlank = true := by
    unfold lineBreak
    split <;> rfl
  rw [habove, blankLine, if_pos hblank]
  unfold lineBreak
  split <;> rfl

end Page

namespace Machine

/-- The beginning of a line ends the one before, where lines are kept as they are. -/
theorem apply_beginLine (hvisible : m.isVisible = true) :
    m.apply .beginLine =
      { m with page := if m.page.noFill then m.page.lineBreak else m.page } := by
  have hbegin : m.apply .beginLine = if m.page.noFill then m.output Page.lineBreak else m := rfl
  rw [hbegin, output_of_isVisible hvisible]
  split <;> rfl

/-- An empty line without a margin, and the font of headings from there on. The style from before is
saved in the scope of the heading. -/
theorem exec_opening (hvisible : m.isVisible = true) :
    m.exec [.clearMargins, .setIndent 0, .blankLine, .openStyle .bold] =
      { m with
        page := m.page.cleared.blankLine.setStyle .bold true
        scopes := .style m.page.style :: m.scopes } := by
  have hshown : ({ m with page := m.page.cleared } : Machine).isVisible = true := hvisible
  have hblank : m.exec [.clearMargins, .setIndent 0, .blankLine] =
      { m with page := m.page.cleared.blankLine } := output_of_isVisible hshown Page.blankLine
  have hsplit : m.exec [.clearMargins, .setIndent 0, .blankLine, .openStyle .bold] =
      ({ m with page := m.page.cleared.blankLine } : Machine).apply (.openStyle .bold) :=
    congrArg (fun n : Machine => n.apply (.openStyle .bold)) hblank
  have hstyle : m.page.cleared.blankLine.style = m.page.style :=
    congrArg Page.Settings.style (Page.settings_blankLine m.page.cleared)
  rw [hsplit, ← hstyle]
  rfl

/-- The beginning of a heading leaves a fresh page below the lines that there are. Where lines are
kept as they are the current one is ended first; where they are filled the empty line does that. -/
theorem exec_beginning (hvisible : m.isVisible = true) :
    m.exec [.beginLine, .clearMargins, .setIndent 0, .blankLine, .openStyle .bold] =
      ({ m with page := m.page.headed, scopes := .style m.page.style :: m.scopes } : Machine).onto
        m.page.aboveHeading := by
  have hshown : ∀ p : Page, ({ m with page := p } : Machine).isVisible = true := fun _ => hvisible
  rw [exec_cons, apply_beginLine hvisible, exec_opening (hshown _)]
  cases hfill : m.page.noFill with
  | true =>
    have hstyle : m.page.lineBreak.style = m.page.style :=
      congrArg Page.Settings.style (Page.settings_lineBreak m.page)
    rw [if_pos rfl, hstyle, Page.blankLine_cleared_lineBreak m.page hfill]
    rfl
  | false =>
    rw [if_neg (by simp), Page.blankLine_cleared m.page hfill]
    rfl

/-- The end of a heading leaves the margin of a section. The style of the title is closed, the
margin and the indent are set, and the line ends last, so that the new one is padded by that margin.
-/
theorem exec_ending {saved : Style} {outer : List Scope} (hvisible : m.isVisible = true)
    (hscopes : m.scopes = .style saved :: outer) :
    m.exec [.closeScope, .sectionMargin, .setIndent 0, .lineBreak] =
      { m with
        scopes := outer
        page := Page.lineBreak { m.page with
          style := saved
          margins := [Page.defaultMargin]
          indent := 0 } } := by
  let n : Machine := { m with
    scopes := outer
    page := { m.page with style := saved, margins := [Page.defaultMargin], indent := 0 } }
  have hclose : m.exec [.closeScope, .sectionMargin, .setIndent 0] = n := by
    have hscope : m.apply .closeScope =
        { m with scopes := outer, page := { m.page with style := saved } } :=
      apply_closeScope_of_style hscopes
    rw [exec_cons, hscope]
    rfl
  have hshown : n.isVisible = true := hvisible
  have hsplit : m.exec [.closeScope, .sectionMargin, .setIndent 0, .lineBreak] =
      n.output Page.lineBreak := congrArg (fun n : Machine => n.output Page.lineBreak) hclose
  rw [hsplit, output_of_isVisible hshown]
  rfl

/-- **A heading in any form.** On the lines that there are, once the current one is ended, follow an
empty line where lines are filled and the current one is not blank, and the words of the title, set
on lines without padding. The heading leaves the margin of a section and no indent, and changes
nothing else. -/
theorem exec_heading (form : Title.Form) (title : Title) (hvisible : m.isVisible = true) :
    ∃ q : Page, m.exec (form.heading title false) = { m with page := q } ∧
      (∃ lines, q.written = m.page.written ++ lines ∧
        lines.map Piece.lineText = (if m.page.noFill || m.page.isLineBlank then [] else [[]]) ++
          Text.fill 0 m.page.width title.words) ∧
      q.settings = { m.page.settings with margins := [Page.defaultMargin], indent := 0 } := by
  let n : Machine := { m with page := m.page.headed, scopes := .style m.page.style :: m.scopes }
  have hnvisible : n.isVisible = true := hvisible
  -- the title, on a page of its own
  have hready : Sheet.Ready [] [] ⟨m.page.width, 0, [], []⟩ := ⟨rfl, rfl⟩
  obtain ⟨r, hrests, hlines⟩ := m.page.rests_headed.phrase hready title.ne_nil title.isInk
  have hphrase : (n.onPage (·.phrase title.first title.rest)).page.Rests r := hrests
  obtain ⟨p, r', hlast, hsettings, hpage, hwords⟩ :=
    exists_exec_last (m := n.onPage (·.phrase title.first title.rest)) form hnvisible hphrase hlines
  have htitle : n.exec (form.shown title) = { n with page := p } := by
    rw [exec_shown form title hnvisible m.page.rests_headed, hlast]
    rfl
  have hending : ({ n with page := p } : Machine).exec
      [.closeScope, .sectionMargin, .setIndent 0, .lineBreak] =
        { m with page := Page.lineBreak { p with
          style := m.page.style
          margins := [Page.defaultMargin]
          indent := 0 } } := exec_ending hvisible rfl
  set q : Page := Page.lineBreak { p with
    style := m.page.style
    margins := [Page.defaultMargin]
    indent := 0 } with hq
  have hwritten : q.written = p.written := by
    rw [hq, Page.written_lineBreak]
    exact Page.SameLines.written_eq ⟨rfl, rfl, rfl, rfl, rfl⟩
  refine ⟨q.onto m.page.aboveHeading, ?_,
    ⟨(if m.page.noFill || m.page.isLineBlank then [] else [[]]) ++ q.written, ?_, ?_⟩, ?_⟩
  · rw [Title.Form.heading, exec_append, exec_beginning hvisible, exec_onto, exec_append, htitle,
      hending]
    rfl
  · rw [Page.written_onto, Page.written, Page.aboveHeading, List.reverse_append, List.append_assoc]
    split <;> rfl
  · rw [List.map_append, hwritten, hpage.map_written hwords, List.append_nil]
    split <;> rfl
  · have hkept : q.settings = { p.settings with
        style := m.page.style, margins := [Page.defaultMargin], indent := 0 } := by
      rw [hq, Page.settings_lineBreak]
      rfl
    have hphrased : p.settings = m.page.headed.settings :=
      hsettings.trans (Page.settings_phrase m.page.headed title.first title.rest)
    have honto : (q.onto m.page.aboveHeading).settings = q.settings := rfl
    rw [honto, hkept, hphrased]
    rfl

end Machine

end Manpage
