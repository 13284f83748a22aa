import Manpage.Proofs.Machine.Filling
import Manpage.Proofs.Machine.Keeping
import Manpage.Proofs.Machine.Onto

/-!
# Tags and their paragraphs

A tag begins on a fresh line without an indent, and the line is ended behind it, whatever room it
has left: its words, and then those of the paragraph, are set on lines of their own. The indent of
the paragraph counts from the first of its lines on, since the padding of a line is that of the
moment at which it is started.

## Main results

* `Manpage.Machine.isPlain_page_exec` — lines of prose leave a plain page.
* `Manpage.Machine.Fills.closeTag` — the end of a tag.
* `Manpage.Machine.exec_tagged` — a tag with its paragraph, below whatever lines.
-/

namespace Manpage

variable {m : Machine} {i : Instr} {is js : List Instr} {ws vs base lines : List Text} {v : Text}
  {c : Machine.Context} {s : Sheet} {p : Page} {amount : Int} {outer : List Scope}

/-! ## Lines of prose on a plain page -/

namespace Machine

/-- Output does the same to the pages of two machines if it is visible on both or hidden on both. -/
theorem page_output_congr {n : Machine} {f : Page → Page} (hvisible : n.isVisible = m.isVisible)
    (hpage : n.page = m.page) : (n.output f).page = (m.output f).page := by
  unfold output onPage
  rw [hvisible]
  split
  · exact congrArg f hpage
  · exact hpage

/-- Whatever scopes are open, an instruction that closes none and sets no font leaves a plain page.

**Proof sketch.** The scopes have no say in such an instruction. So it does the same to a machine
without scopes, where a plain page is a plain machine. -/
theorem isPlain_page_apply (h : m.page.IsPlain) (hi : i.setsFont = false) (hne : i ≠ .closeScope) :
    (m.apply i).page.IsPlain := by
  let n : Machine := { m with scopes := [] }
  have hn : n.IsPlain := ⟨h, fun _ => List.not_mem_nil⟩
  have houtput : ∀ f, (n.output f).page = (m.output f).page := fun f => page_output_congr rfl rfl
  have hpage : (n.apply i).page = (m.apply i).page := by
    cases i with
    | closeScope => exact absurd rfl hne
    | emit | space | blank | emptyLine | lineBreak | blankLine | skipLines => exact houtput _
    | beginLine =>
      simp only [apply, n]
      split
      · exact houtput _
      · rfl
    | endLine =>
      simp only [apply, n]
      split
      · rfl
      · exact houtput _
    | openTag => exact page_output_congr rfl rfl
    | _ => rfl
  rw [← hpage]
  exact (hn.apply hi).page

/-- The instructions in a word leave a plain page and all scopes. By induction: a word consists of
records and texts. -/
theorem isPlain_page_exec_word (his : IsWord v is) (h : m.page.IsPlain) :
    (m.exec is).page.IsPlain ∧ (m.exec is).scopes = m.scopes := by
  have hscopes : ∀ (n : Machine) (f : Page → Page), (n.output f).scopes = n.scopes := by
    intro n f
    unfold output
    split <;> rfl
  have heach := his.each
  clear his
  induction is generalizing m with
  | nil => exact ⟨h, rfl⟩
  | cons i is ih =>
    obtain ⟨hi, hrest⟩ := List.forall_mem_cons.mp heach
    have hnext : (m.apply i).page.IsPlain ∧ (m.apply i).scopes = m.scopes := by
      rcases hi with hrecord | ⟨t, rfl, -, -⟩
      · cases i with
        | consume | note | warn => exact ⟨h, rfl⟩
        | _ => exact Bool.noConfusion hrecord
      · exact ⟨isPlain_page_apply h rfl (by simp), hscopes m _⟩
    obtain ⟨hpage, hmore⟩ := ih hnext.1 hrest
    exact ⟨hpage, hmore.trans hnext.2⟩

/-- A word leaves a plain page. -/
theorem isPlain_page_word (his : IsWord v is) (h : m.page.IsPlain) :
    (m.exec (.openWord :: is ++ [.closeScope])).page.IsPlain := by
  obtain ⟨hpage, hscopes⟩ := isPlain_page_exec_word his
    (isPlain_page_apply h (i := .openWord) rfl (by simp))
  rw [List.cons_append, exec_cons, exec_append, exec_cons, exec_nil,
    apply_closeScope_of_word (hscopes.trans rfl)]
  exact hpage.closeWord

/-- **A line of prose** leaves a plain page. By induction on its words and blanks, none of which
sets a font. -/
theorem isPlain_page_text (his : IsText ws is) (h : m.page.IsPlain) :
    (m.exec is).page.IsPlain := by
  induction his generalizing m with
  | done => exact isPlain_page_apply h (i := .endLine) rfl (by simp)
  | blank t b _ ih =>
    exact ih (isPlain_page_apply (isPlain_page_apply h (i := .consume t) rfl (by simp))
      (i := .blank b) rfl (by simp))
  | last hword =>
    have hpage := isPlain_page_word hword h
    rw [List.append_cons, exec_append]
    exact isPlain_page_apply hpage (i := .endLine) rfl (by simp)
  | word t b hword _ ih =>
    have hpage := isPlain_page_word hword h
    rw [List.append_cons, exec_append]
    exact ih (isPlain_page_apply (isPlain_page_apply hpage (i := .consume t) rfl (by simp))
      (i := .blank b) rfl (by simp))

/-- **Lines of prose** leave a plain page. -/
theorem isPlain_page_exec (his : IsLines ws is) (h : m.page.IsPlain) :
    (m.exec is).page.IsPlain := by
  induction his generalizing m with
  | nil => exact h
  | line htext _ ih =>
    rw [List.cons_append, exec_cons, exec_append]
    exact ih (isPlain_page_text htext (isPlain_page_apply h (i := .beginLine) rfl (by simp)))

end Machine

/-! ## Ends of lines -/

/-- Once the current line is ended, the lines are those of the words. Ending the line strips the
space behind the last word; a line of padding only is not counted. -/
theorem Sheet.Ready.ended_eq (h : s.Ready base lines) :
    Text.ended s.finished s.line = lines ++ base := by
  have hfresh : s.line = Text.spaces s.padding → Text.ended s.finished s.line = s.finished := by
    intro hline
    rw [Text.ended_of_isBlank (by rw [hline, Text.isBlank_spaces])]
  cases lines with
  | nil => rw [hfresh h.2, h.1, List.nil_append]
  | cons l ls =>
    obtain ⟨hl, ⟨hfinished, hline, -⟩ | ⟨hfinished, hline, -⟩⟩ := h
    · have hblank : s.line.isBlank = false := by
        have := hl.not_blank
        simp [hline, this]
      rw [Text.ended_of_not_isBlank hblank, hline, Text.stripRight_append_of_isBlank _ rfl,
        hl.strip_eq, hfinished, List.cons_append]
    · rw [hfresh hline, hfinished]

namespace Page

/-- The end of the current line starts a fresh one, with the padding of the moment. A blank line is
started again, any other is finished. -/
theorem Accounted.sets_lineBreak (h : p.Accounted) (hfill : p.noFill = false) :
    p.lineBreak.Sets ⟨p.width, p.padding,
      Text.ended (p.finished.map Piece.lineText) p.lineText, Text.spaces p.padding⟩ := by
  unfold lineBreak
  rw [h.isLineBlank_eq]
  split
  · rename_i hblank
    rw [Text.ended_of_isBlank hblank]
    exact ⟨sheet_startLine p, accounted_startLine p, rfl, hfill⟩
  · rename_i hblank
    rw [Text.ended_of_not_isBlank (by simpa using hblank)]
    exact ⟨sheet_breakLine h, accounted_breakLine p, rfl, hfill⟩

end Page

namespace Machine

/-- The lines that a machine has set words on, once the current one is ended. The latest line stands
first among the finished ones. -/
theorem Fills.map_written (h : m.Fills c base lines) :
    m.page.written.map Piece.lineText = (lines ++ base).reverse := by
  obtain ⟨s, hsets, hready⟩ := h
  have hended := (hsets.page.accounted.sets_lineBreak hsets.page.noFill_eq).sheet_eq
  have hfinished : m.page.lineBreak.finished.map Piece.lineText =
      Text.ended s.finished s.line := by
    rw [← hsets.page.sheet_eq]
    exact congrArg Sheet.finished hended
  rw [Page.written, List.map_reverse, hfinished, hready.ended_eq]

/-! ## Tags -/

/-- The context with the indent of a paragraph, behind its tag. -/
def Context.indented (c : Context) (amount : Int) (outer : List Scope) : Context :=
  ⟨c.width, { c.settings with indent := amount, storedIndent := some amount }, outer⟩

/-- **The end of a tag** ends its last line, whether that is full or not.

**Proof sketch.** A break behind the words ends their line; a line that is full has ended, and there
the break only pads the new line. The padding is that of the indent which the tag has kept. -/
theorem Fills.closeTag (h : m.Fills c base lines) (hscopes : c.scopes = .tag amount :: outer) :
    (m.apply .closeScope).Fills (c.indented amount outer) (lines ++ base) [] := by
  obtain ⟨s, hsets, hready⟩ := h
  obtain ⟨rfl, hvisible, hpage⟩ := hsets
  let n : Machine := { m with scopes := outer, page := indentBy amount m.page }
  have hclose : m.apply .closeScope = n.onPage Page.lineBreak := by
    have hopen : m.scopes = .tag amount :: outer := hscopes
    have hshown : n.isVisible = true := hvisible
    rw [apply_closeScope_of_tag hopen, output_of_isVisible hshown]
  have haccounted : n.page.Accounted := ⟨hpage.accounted.extent_eq, hpage.accounted.pure⟩
  have hended := haccounted.sets_lineBreak hpage.noFill_eq
  have hfinished : Text.ended (n.page.finished.map Piece.lineText) n.page.lineText =
      lines ++ base := by
    rw [← hready.ended_eq, ← hpage.sheet_eq]
    rfl
  rw [hfinished] at hended
  rw [hclose]
  refine ⟨_, ⟨?_, hvisible, hended⟩, rfl, rfl⟩
  have hwidth : n.page.lineBreak.width = m.page.width := congrArg Sheet.width hended.sheet_eq
  simp only [context, onPage, Page.settings_lineBreak, hwidth]
  rfl

/-- The end of a tag leaves a plain page. -/
theorem isPlain_page_closeTag (hscopes : m.scopes = .tag amount :: outer) (h : m.page.IsPlain) :
    (m.apply .closeScope).page.IsPlain := by
  have hindent : (indentBy amount m.page).IsPlain := h.of_pieces rfl fun x hx => Or.inr hx
  rw [apply_closeScope_of_tag hscopes, output]
  split
  · exact hindent.lineBreak
  · exact hindent

/-- The beginning of a tag: the machine is ready for its words, on a page below the lines that there
are already.

**Proof sketch.** The break before the tag finishes the pending line, if there is one, and the fresh
line is padded without the indent. What is finished stays below, and nothing later asks for it. -/
theorem exists_apply_openTag (hvisible : m.isVisible = true) (hfill : m.page.noFill = false)
    (hstyle : m.page.style = .plain) (a : Option Int) :
    ∃ n : Machine, m.apply (.openTag a) = n.onto m.page.lineBreak.finished ∧ n.page.IsPlain ∧
      n.Fills ⟨m.page.width, { m.page.settings with indent := 0 },
        .tag (a.getD m.page.paragraphIndent) :: m.scopes⟩ [] [] := by
  let q : Page := { m.page with indent := 0 }
  let fresh : Page := Page.startLine { q with finished := [] }
  have hlineBreak : q.lineBreak = fresh.onto m.page.lineBreak.finished := by
    have hblank : q.isLineBlank = m.page.isLineBlank := rfl
    unfold Page.lineBreak
    rw [hblank]
    split <;> rfl
  have houtput : (m.onPage fun p => { p with indent := 0 }).output Page.lineBreak =
      { m with page := q.lineBreak } := by
    have hshown : (m.onPage fun p => { p with indent := 0 }).isVisible = true := hvisible
    rw [output_of_isVisible hshown]
    rfl
  refine ⟨{ m with page := fresh, scopes := .tag (a.getD m.page.paragraphIndent) :: m.scopes },
    ?_, ⟨hstyle, ?_⟩, fresh.sheet,
    ⟨rfl, hvisible, rfl, Page.accounted_startLine _, rfl, hfill⟩, rfl, ?_⟩
  · rw [apply, houtput, hlineBreak]
    rfl
  · intro x hx
    have hspace : x ∈ List.replicate q.padding Piece.space ++ [] := hx
    rw [List.append_nil] at hspace
    rw [List.eq_of_mem_replicate hspace]
    rfl
  · exact Page.lineText_startLine _

/-- **A tag with its paragraph.** On the lines that there are, once the current one is ended, follow
the words of the tag, set on lines with the padding of the margin, and those of the paragraph, set
on lines with that of its indent. The paragraph leaves its indent, stored, and nothing else. -/
theorem exec_tagged (hvisible : m.isVisible = true) (hfill : m.page.noFill = false)
    (hstyle : m.page.style = .plain) (a : Option Int) (htag : IsText ws is)
    (hbody : IsLines vs js) :
    (∃ lines, (m.exec (.openTag a :: is ++ .closeScope :: js)).page.written =
        m.page.written ++ lines ∧
      lines.map Piece.showLine =
        Text.fill (min m.page.margin m.page.width).toNat m.page.width
            (ws.filter fun w => w ≠ []) ++
          Text.fill (min (m.page.margin + a.getD m.page.paragraphIndent) m.page.width).toNat
            m.page.width (vs.filter fun w => w ≠ [])) ∧
    (m.exec (.openTag a :: is ++ .closeScope :: js)).page.settings =
      { m.page.settings with
        indent := a.getD m.page.paragraphIndent
        storedIndent := some (a.getD m.page.paragraphIndent) } := by
  obtain ⟨n, hopen, hplain, hfills⟩ := exists_apply_openTag hvisible hfill hstyle a
  -- the tag and the paragraph, on a page of their own
  have htagged := hfills.text htag
  have hlines := (htagged.closeTag rfl).prose hbody
  set n' := ((n.exec is).apply .closeScope).exec js with hn'
  have hplain' : n'.page.IsPlain := by
    obtain ⟨s, hsets, -⟩ := htagged
    have hscopes : (n.exec is).scopes = .tag (a.getD m.page.paragraphIndent) :: m.scopes :=
      congrArg Context.scopes hsets.context_eq
    exact isPlain_page_exec hbody
      (isPlain_page_closeTag hscopes (isPlain_page_text htag hplain))
  have hexec : m.exec (.openTag a :: is ++ .closeScope :: js) =
      n'.onto m.page.lineBreak.finished := by
    rw [List.cons_append, exec_cons, hopen, exec_append, exec_cons, exec_onto, apply_onto,
      exec_onto]
  have hwritten : (m.exec (.openTag a :: is ++ .closeScope :: js)).page.written =
      m.page.written ++ n'.page.written := by
    rw [hexec]
    exact Page.written_onto m.page.lineBreak.finished n'.page
  have hshown : n'.page.written.map Piece.showLine = n'.page.written.map Piece.lineText := by
    refine List.map_congr_left fun line hline => hplain'.lineBreak.showLine_eq fun x hx => ?_
    exact List.mem_append_right _ (List.mem_flatten.mpr ⟨line, List.mem_reverse.mp hline, hx⟩)
  refine ⟨⟨_, hwritten, ?_⟩, ?_⟩
  · have hpadding : (min (m.page.margin + 0) m.page.width).toNat =
        (min m.page.margin m.page.width).toNat := by rw [Int.add_zero]
    rw [hshown, hlines.map_written, List.append_nil, List.reverse_append, ← hpadding]
    rfl
  · obtain ⟨s, hsets, -⟩ := hlines
    rw [hexec]
    exact congrArg Context.settings hsets.context_eq

end Machine

end Manpage
