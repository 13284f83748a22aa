import Manpage.Proofs.Machine.Filling
import Manpage.Proofs.Program.Request

/-!
# Space behind lines of prose

What requests for space do to a page with words on it. Behind words that leave room on their line,
the line is ended and empty lines are left. Words that fill their line to its end have ended it
already, and the requests find an empty line: they leave nothing.

## Main definitions

* `Manpage.Text.spaced` — lines with empty lines behind them, unless the latest is full.

## Main results

* `Manpage.Machine.Fills.emptyLine`, `Manpage.Machine.Fills.paragraph`,
  `Manpage.Machine.Fills.skipLines` — the space that blank lines, paragraphs and requests for empty
  lines leave.
-/

namespace Manpage

/-- Lines, the latest first, with so many empty lines behind them; none where the latest has no room
for a space. -/
def Text.spaced (width count : Nat) : List Text → List Text
  | [] => []
  | l :: ls => if l.length < width then List.replicate count [] ++ l :: ls else l :: ls

namespace Machine

variable {m : Machine} {c : Context} {s : Sheet} {base ls : List Text} {l : Text} {i : Instr}
  {is : List Instr}

/-- An empty line on a machine that sets a sheet is one on the sheet. -/
theorem Sets.blankLine (h : m.Sets c s) : (m.onPage Page.blankLine).Sets c s.blankLine := by
  refine h.onPage h.page.blankLine ?_ (Page.settings_blankLine m.page)
  unfold Sheet.blankLine
  split <;> rfl

/-- Breaks of a machine that sets a sheet are breaks of the sheet. -/
theorem Sets.breakLines (h : m.Sets c s) (n : Nat) :
    (m.onPage (·.breakLines n)).Sets c (s.breakLines n) := by
  refine h.onPage (h.page.breakLines n) ?_ (Page.settings_breakLines m.page n)
  clear h
  induction n generalizing s with
  | zero => rfl
  | succ n ih => exact ih (s := s.breakLine)

/-- Records before other instructions. -/
theorem Fills.records (h : m.Fills c base ls) (his : ∀ i ∈ is, i.isRecord = true) :
    (m.exec is).Fills c base ls := by
  induction is generalizing m with
  | nil => exact h
  | cons i is ih =>
    obtain ⟨s, hsets, hready⟩ := h
    refine ih ⟨s, hsets.record (his i List.mem_cons_self), hready⟩ ?_
    exact fun j hj => his j (List.mem_cons_of_mem i hj)

/-- Lines that show nothing: the effect of the first, and the others. -/
theorem Fills.requests {e : List Instr} {es : List (List Instr)} (h : m.Fills c base ls)
    (his : IsRequests (e :: es) is) : ∃ (m' : Machine) (js : List Instr),
      m'.Fills c base ls ∧ IsRequests es js ∧ m.exec is = (m'.exec e).exec js := by
  cases his with
  | @line records _ js _ hrecords hjs =>
    refine ⟨(m.apply .beginLine).exec records, js, h.beginLine.records hrecords, hjs, ?_⟩
    rw [List.append_assoc, List.cons_append, exec_cons, exec_append, exec_append]

/-- An empty line behind words. -/
theorem Fills.blankLine (h : m.Fills c [] (l :: ls)) :
    (m.apply .blankLine).Fills c (Text.spaced c.width 1 (l :: ls)) [] := by
  obtain ⟨s, hsets, hready⟩ := h
  have hblank := hready.blankLine
  rw [hsets.width_eq, List.append_nil, List.append_nil] at hblank
  refine ⟨s.blankLine, ?_, hblank⟩
  rw [apply, hsets.output_eq]
  exact hsets.blankLine

/-- A blank line in the source, behind words. -/
theorem Fills.emptyLine (h : m.Fills c [] (l :: ls)) :
    (m.apply .emptyLine).Fills c (Text.spaced c.width 1 (l :: ls)) [] := by
  have hblank := h.blankLine
  obtain ⟨s, hsets, -⟩ := h
  have heq : m.apply .emptyLine = m.apply .blankLine := by
    simp only [apply, hsets.output_eq, Machine.onPage, hsets.page.noFill_eq]
    rfl
  rwa [heq]

/-- A blank line in the source where nothing stands on the line. -/
theorem Fills.emptyLine_nil (h : m.Fills c base []) : (m.apply .emptyLine).Fills c base [] := by
  obtain ⟨s, hsets, hready⟩ := h
  refine ⟨s.blankLine, ?_, hready.blankLine_nil⟩
  have heq : m.apply .emptyLine = m.onPage Page.blankLine := by
    simp only [apply, hsets.output_eq, Machine.onPage, hsets.page.noFill_eq]
    rfl
  rw [heq]
  exact hsets.blankLine

/-- A paragraph behind words, in the plain style and without an indent. Indent and style are those
already, so the empty line is all that is left. -/
theorem Fills.paragraph (h : m.Fills c [] (l :: ls)) (hindent : c.settings.indent = 0)
    (hstyle : c.settings.style = .plain) :
    (m.exec [.setIndent 0, .plainStyle, .blankLine]).Fills c
      (Text.spaced c.width 1 (l :: ls)) [] := by
  have hsame : (m.apply (.setIndent 0)).apply .plainStyle = m := by
    obtain ⟨s, hsets, -⟩ := h
    have hsettings : m.page.settings = c.settings := congrArg Context.settings hsets.context_eq
    have hpage : { m.page with indent := 0, style := .plain } = m.page := by
      rw [← hindent, ← hstyle, ← hsettings]
      rfl
    exact congrArg (fun page => { m with page := page }) hpage
  rw [exec_cons, exec_cons, hsame]
  exact h.blankLine

/-- A request for empty lines behind words leaves so many, or none where the latest line is full.

**Proof sketch.** If the line has room for a space it is not blank, and the request ends it and
leaves the empty lines. If it is full it has ended, the page finds a blank line, and leaves it at
that. -/
theorem Fills.skipLines (h : m.Fills c [] (l :: ls)) (count : Nat) :
    (m.apply (.skipLines count)).Fills c (Text.spaced c.width count (l :: ls)) [] := by
  obtain ⟨s, hsets, hready⟩ := h
  rw [apply, hsets.output_eq, Text.spaced]
  by_cases hroom : l.length < s.width
  · have hlines := hready.breakLines hroom count
    have hblank : ¬ m.page.isLineBlank = true := by
      rw [hsets.page.isLineBlank_eq]
      obtain ⟨hl, ⟨-, hline, -⟩ | ⟨-, -, hfull⟩⟩ := hready
      · simp [hline, hl.not_blank]
      · omega
    have heq : m.onPage (Machine.skipLines count) = m.onPage (·.breakLines (count + 1)) := by
      simp only [Machine.onPage, Machine.skipLines, if_neg hblank]
    rw [List.append_nil] at hlines
    rw [if_pos (hsets.width_eq ▸ hroom), heq]
    exact ⟨_, hsets.breakLines (count + 1), hlines⟩
  · have hlines := hready.of_full (Nat.le_of_not_lt hroom)
    have hblank : m.page.isLineBlank = true := by
      rw [hsets.page.isLineBlank_eq, hlines.2]
      exact Text.isBlank_spaces s.padding
    have heq : m.onPage (Machine.skipLines count) = m := by
      simp only [Machine.onPage, Machine.skipLines, if_pos hblank]
    rw [List.append_nil] at hlines
    rw [if_neg (hsets.width_eq ▸ hroom), heq]
    exact ⟨s, hsets, hlines⟩

end Machine

/-- The instructions for lines that show nothing are plain where their effects are. By induction on
the lines, records and the start of a line being plain. -/
theorem IsRequests.isPlain {es : List (List Instr)} {is : List Instr} (h : IsRequests es is)
    (hes : ∀ e ∈ es, ∀ i ∈ e, Instr.isPlain i = true) : ∀ i ∈ is, i.isPlain = true := by
  induction h with
  | nil => simp
  | @line records e is es hrecords _ ih =>
    have hrest := ih fun e' he' => hes e' (List.mem_cons_of_mem e he')
    simp only [List.cons_append, List.append_assoc, List.mem_cons, List.mem_append]
    rintro i (rfl | hi | hi | hi)
    · rfl
    · exact Instr.isPlain_of_isRecord (hrecords i hi)
    · exact hes e List.mem_cons_self i hi
    · exact hrest i hi

end Manpage
