import Manpage.Proofs.Machine.Filling
import Manpage.Proofs.Prose.Line
import Manpage.Proofs.Render.Lines

/-!
# Rendered prose

Lines of prose are rendered as their words, set on lines one after another.

## Main definitions

* `Manpage.Machine.start` — a machine at the beginning of a source.

## Main results

* `Manpage.render_eq_of_fills` — the text that a machine which has set words on lines leaves.
* `Manpage.render_prose` — what lines of prose are rendered as.
-/

namespace Manpage

/-! ## The lines of a page and those of its sheet -/

/-- The lines of a sheet, without the blanks at their ends, the first line first. -/
def Sheet.lines (s : Sheet) : List Text :=
  (s.line.stripRight :: s.finished).reverse

variable {source : Text} {width : Int} {c : Machine.Context} {base lines : List Text}
  {is : List Instr}

/-- Words that are set on lines end in ink, so beyond the lines there are empty ones only.

**Proof sketch.** Where no word has been set, or the latest line is full and has ended, the current
line is padding only, which is stripped to an empty line. Otherwise it is the latest line with a
space behind it, which is stripped. -/
theorem Sheet.Bears.rdropWhile_lines {s : Sheet} (h : s.Bears base lines) :
    s.lines.rdropWhile List.isEmpty = (lines ++ base).reverse.rdropWhile List.isEmpty := by
  have hfresh : ∀ ls, s.finished = ls → s.line = Text.spaces s.padding →
      s.lines.rdropWhile List.isEmpty = ls.reverse.rdropWhile List.isEmpty := by
    intro ls hfinished hline
    have hempty : s.line.stripRight = [] := by
      rw [hline, Text.stripRight_eq_nil_iff]
      exact Text.isBlank_spaces s.padding
    rw [Sheet.lines, hempty, hfinished, List.reverse_cons, List.rdropWhile_concat_pos _ _ _ rfl]
  cases lines with
  | nil => exact hfresh base h.1 h.2
  | cons l ls =>
    obtain ⟨hl, ⟨hfinished, hline⟩ | ⟨hfinished, hline, -⟩⟩ := h
    · have hstrip : s.line.stripRight = l := by
        rw [hline, Text.stripRight_append_of_isBlank _ rfl, hl.strip_eq]
      rw [Sheet.lines, hstrip, hfinished, List.cons_append]
    · exact hfresh _ hfinished hline

/-- Lines whose latest ends in ink end in no empty line. -/
theorem Sheet.EndsInInk.rdropWhile_eq {l : Text} (h : Sheet.EndsInInk l) (ls : List Text) :
    (l :: ls).reverse.rdropWhile List.isEmpty = (l :: ls).reverse := by
  have hne : ¬ l.isEmpty = true := by simpa using h.ne_nil
  rw [List.reverse_cons, List.rdropWhile_concat_neg _ _ _ hne]

/-- Words that are set on lines of their own end in no empty line. -/
theorem Sheet.Bears.rdropWhile_lines_nil {s : Sheet} (h : s.Bears [] lines) :
    s.lines.rdropWhile List.isEmpty = lines.reverse := by
  rw [h.rdropWhile_lines, List.append_nil]
  cases lines with
  | nil => rfl
  | cons l ls => exact h.1.rdropWhile_eq ls

/-- A sheet that waits for a word has the lines of that state, but for empty ones at the end. -/
theorem Sheet.Ready.rdropWhile_lines {s : Sheet} (h : s.Ready base lines) :
    s.lines.rdropWhile List.isEmpty = (lines ++ base).reverse.rdropWhile List.isEmpty :=
  h.bears.rdropWhile_lines

/-- The characters of the lines of a page are the lines of its sheet. The current line loses its
blanks at the end on both. -/
theorem Page.Sets.map_lineText_lines {p : Page} {s : Sheet} (h : p.Sets s)
    (hpure : ∀ x ∈ p.pieces, x.IsPure) : p.lines.map Piece.lineText = s.lines := by
  have hcurrent : Piece.lineText (p.currentLine.dropWhile Piece.isBlank) = s.line.stripRight := by
    rw [Piece.lineText_dropWhile fun x hx => hpure x (List.mem_append_left _ hx), ← h.sheet_eq]
    rfl
  have hfinished : p.finished.map Piece.lineText = s.finished := by
    rw [← h.sheet_eq]
    rfl
  rw [Page.lines, List.map_reverse, List.map_cons, hcurrent, hfinished, Sheet.lines]

/-- The lines of a plain page are those of its sheet. -/
theorem Page.Sets.map_showLine_lines {p : Page} {s : Sheet} (h : p.Sets s) (hplain : p.IsPlain)
    (hpure : ∀ x ∈ p.pieces, x.IsPure) : p.lines.map Piece.showLine = s.lines := by
  rw [← h.map_lineText_lines hpure]
  apply List.map_congr_left
  intro line hline
  exact hplain.showLine_eq fun x hx => Page.mem_pieces_of_mem_lines hline hx

/-! ## Programs without a fault -/

/-- A machine at the beginning of a source, with all of its output visible. -/
def Machine.start (width : Int) : Machine :=
  { Machine.fresh (Page.ofWidth width) none with consumed := true }

/-- The context of prose at the beginning of a source. -/
def Machine.Context.ofWidth (width : Int) : Machine.Context :=
  (Machine.start width).context

/-- A machine at the beginning of a source has set no words, on lines of the width that is asked
for, or of one column where less is asked for. -/
theorem Machine.start_fills (width : Int) :
    (Machine.start width).Fills (Machine.Context.ofWidth width) [] [] :=
  ⟨⟨(max 1 width).toNat, 0, [], []⟩, ⟨rfl, rfl, rfl, Page.accounted_ofWidth width, rfl, rfl⟩,
    rfl, rfl⟩

/-- Lines are at least one column wide. -/
@[simp] theorem Machine.Context.width_ofWidth (width : Int) :
    (Machine.Context.ofWidth width).width = (max 1 width).toNat := rfl

/-- At the beginning of a source, lines are not padded. -/
@[simp] theorem Machine.Context.padding_ofWidth (width : Int) :
    (Machine.Context.ofWidth width).padding = 0 := rfl

/-- A source whose program cannot fail is interpreted to its end. -/
theorem interpretSource_eq (hprogram : program false (Token.ofSource source) = is)
    (hsafe : ∀ i ∈ is, i.isSafe = true) :
    interpretSource source none width = ⟨(Machine.start width).exec is, none⟩ := by
  rw [← Machine.run_eq hsafe, ← hprogram]
  rfl

/-- **The text that words leave.** A machine that has set words on lines, and has carried out a
program that cannot fail and sets no font, leaves the lines, and none of the empty ones at the
end. -/
theorem render_eq_of_fills (hprogram : program false (Token.ofSource source) = is)
    (his : ∀ i ∈ is, i.isPlain = true)
    (hfills : ((Machine.start width).exec is).Fills c base lines) :
    render source none width =
      .ok (Text.join ['\n'] ((lines ++ base).reverse.rdropWhile List.isEmpty)) := by
  have hsafe : ∀ i ∈ is, i.isSafe = true := fun i hi => Instr.isSafe_of_isPlain (his i hi)
  have hfont : ∀ i ∈ is, i.setsFont = false := fun i hi => Instr.setsFont_of_isPlain (his i hi)
  have heq : interpretSource source none width = ⟨(Machine.start width).exec is, none⟩ :=
    interpretSource_eq hprogram hsafe
  have hfault : (interpretSource source none width).fault = none := by rw [heq]
  have htidy : Page.Tidy source _ := ((Page.steady_tidy source).interpretSource
    (Page.tidy_ofWidth source width) hfault).holds
  rw [heq] at htidy
  have hplain : ((Machine.start width).exec is).IsPlain :=
    Machine.IsPlain.exec ⟨Page.isPlain_ofWidth width, fun _ => List.not_mem_nil⟩ hfont
  obtain ⟨s, hsets, hready⟩ := hfills
  rw [render_eq_ok_iff, heq]
  refine ⟨rfl, ?_⟩
  rw [Page.text_eq htidy.isPure htidy.trimmed,
    hsets.page.map_showLine_lines hplain.page htidy.isPure, hready.rdropWhile_lines]

/-! ## Prose -/

/-- Lines of words end in no empty line. -/
theorem Sheet.Ready.rdropWhile_eq {s : Sheet} {l : Text} (h : s.Ready base (l :: lines)) :
    (l :: lines ++ base).reverse.rdropWhile List.isEmpty = (l :: lines ++ base).reverse :=
  h.1.rdropWhile_eq (lines ++ base)

/-- **Lines of prose** are rendered as the words on them, each decoded, set on lines one after
another, as many on a line as fit. Words that stand for nothing are left out.

**Proof sketch.** The program of the lines shows the words and the blanks between them. The machine
adds the words to the lines of its page, and a space behind each, which ends the line where there is
no room for it; so the page has the lines of the words, and no word begins where it would not on
paper. -/
theorem render_prose (ls : List Prose.Line) (width : Int) :
    render (Prose.source ls) none width =
      .ok (Text.join ['\n'] (Text.fill 0 (max 1 width).toNat
        ((ls.flatMap Prose.Line.meanings).filter fun w => w ≠ []))) := by
  obtain ⟨is, his, hprogram⟩ := Prose.exists_program_ofLines false ls 1 []
  have hsource : program false (Token.ofSource (Prose.source ls)) = is := by
    have hlines := Prose.splitLines_source ls []
    rw [List.append_nil] at hlines
    rw [Token.ofSource, hlines, Text.splitLines, hprogram]
    exact List.append_nil is
  have hfills := (Machine.start_fills width).prose his
  rw [render_eq_of_fills hsource his.isPlain hfills, List.append_nil]
  simp only [Machine.Context.width_ofWidth, Machine.Context.padding_ofWidth] at hfills ⊢
  rw [Text.fill, ← Text.addWords]
  obtain ⟨s, -, hready⟩ := hfills
  cases hwords : Text.addWords 0 (max 1 width).toNat [] (ls.flatMap Prose.Line.meanings) with
  | nil => rfl
  | cons l lines =>
    rw [hwords] at hready
    have hlines := hready.rdropWhile_eq
    rw [List.append_nil] at hlines
    rw [hlines]

end Manpage
