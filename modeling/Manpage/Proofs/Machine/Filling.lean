import Manpage.Proofs.Machine.Plain
import Manpage.Proofs.Page.Greedy
import Manpage.Proofs.Program.Prose

/-!
# Lines of prose on a page

What the instructions for a line of prose do to a page on which lines are filled: the words of the
line are added to the lines one after another, and the page is ready for the next word.

## Main definitions

* `Manpage.Machine.Context`, `Manpage.Machine.context` — what the words of a line leave alone.
* `Manpage.Machine.Fills` — a machine that has set words on lines and is ready for the next word.

## Main results

* `Manpage.Machine.Fills.text`, `Manpage.Machine.Fills.prose` — the instructions for a line of
  prose, and for several lines.
-/

namespace Manpage

variable {m : Machine} {s : Sheet} {v u : Text} {base lines ws : List Text} {i : Instr}
  {is : List Instr}

namespace Machine

/-- What the words of a line leave alone. -/
structure Context where
  width : Nat
  settings : Page.Settings
  scopes : List Scope

/-- The context of a machine. -/
def context (m : Machine) : Context :=
  ⟨m.page.width, m.page.settings, m.scopes⟩

/-- The padding of lines in a context. -/
def Context.padding (c : Context) : Nat :=
  c.settings.padding c.width

variable {c : Context} {r : Sheet}

/-- A machine between words, its output visible and its lines filled, with its sheet. -/
structure Sets (c : Context) (s : Sheet) (m : Machine) : Prop where
  context_eq : m.context = c
  isVisible : m.isVisible = true
  page : m.page.Sets s

/-- A machine that has opened a word above a sheet, with the text of the word so far. -/
structure Opened (c : Context) (s : Sheet) (v : Text) (m : Machine) : Prop where
  settings_eq : m.page.settings = c.settings
  scopes_eq : m.scopes = .word :: c.scopes
  width_eq : s.width = c.width
  isVisible : m.isVisible = true
  page : m.page.Opened s v
  blocks : ∃ outer, m.page.blocks = true :: outer

/-! ## Output -/

/-- Visible output changes the page. -/
theorem Sets.output_eq (h : m.Sets c s) (f : Page → Page) : m.output f = m.onPage f :=
  output_of_isVisible h.isVisible f

/-- A change of the page that leaves its width and settings alone. The context has nothing else of
the page in it. -/
theorem Sets.onPage {f : Page → Page} (h : m.Sets c s) (hpage : (f m.page).Sets r)
    (hwidth : r.width = s.width) (hsettings : (f m.page).settings = m.page.settings) :
    (m.onPage f).Sets c r := by
  refine ⟨?_, h.isVisible, hpage⟩
  have hpagewidth : (f m.page).width = m.page.width := by
    have hold : m.page.width = s.width := congrArg Sheet.width h.page.sheet_eq
    have hnew : (f m.page).width = r.width := congrArg Sheet.width hpage.sheet_eq
    rw [hold, hnew, hwidth]
  rw [← h.context_eq]
  simp only [context, Machine.onPage, hpagewidth, hsettings]

/-! ## Words -/

/-- Opening a word on a machine that sets a sheet opens one on its page, with nothing in it. -/
theorem Sets.openWord (h : m.Sets c s) : (m.apply .openWord).Opened c s [] := by
  obtain ⟨rfl, hvisible, hpage⟩ := h
  refine ⟨Page.settings_openWord m.page, rfl, ?_, hvisible, hpage.openWord, ?_⟩
  · exact (congrArg Sheet.width hpage.sheet_eq).symm
  · refine ⟨m.page.blocks, ?_⟩
    show m.page.openWord.blocks = _
    rw [Page.openWord_of_none hpage.word_eq]

/-- A record makes no difference to a machine with an open word. -/
theorem Opened.record (h : m.Opened c s u) (hi : i.isRecord = true) :
    (m.apply i).Opened c s u := by
  cases i with
  | consume | note | warn =>
    exact ⟨h.settings_eq, h.scopes_eq, h.width_eq, h.isVisible, h.page, h.blocks⟩
  | _ => exact Bool.noConfusion hi

/-- Output that leaves the settings and blocks alone puts a text into the word. -/
theorem Opened.output {f : Page → Page} (h : m.Opened c s u) (hpage : (f m.page).Opened s v)
    (hsettings : (f m.page).settings = m.page.settings)
    (hblocks : (f m.page).blocks = m.page.blocks) : (m.output f).Opened c s v := by
  have heq : m.output f = m.onPage f := output_of_isVisible h.isVisible f
  obtain ⟨outer, houter⟩ := h.blocks
  rw [heq]
  exact ⟨hsettings.trans h.settings_eq, h.scopes_eq, h.width_eq, h.isVisible, hpage, outer,
    hblocks.trans houter⟩

/-- A text of ink that is shown in an open word joins the word. -/
theorem Opened.emit {t : Text} (h : m.Opened c s u) (hne : t ≠ []) (hink : t.isInk = true) :
    (m.apply (.emit t)).Opened c s (u ++ t) := by
  obtain ⟨w, hw, -⟩ := h.page.exists_word
  have hblocks : (m.page.append t).blocks = m.page.blocks := by
    rw [Page.append_ink_of_word hne hink hw, Page.blocks_put]
  exact h.output (f := (·.append t)) (h.page.append hne hink) (Page.settings_append m.page t)
    hblocks

/-- The instructions in a word put its text together. By induction on the instructions, each of
which is a record or shows a part of the word. -/
theorem Opened.exec (h : m.Opened c s u) (his : IsWord v is) : (m.exec is).Opened c s (u ++ v) := by
  induction is generalizing m u v with
  | nil =>
    obtain rfl : [] = v := his.shown_eq
    rwa [List.append_nil]
  | cons i is ih =>
    rcases his.each i List.mem_cons_self with hrecord | ⟨t, rfl, hne, hink⟩
    · exact ih (h.record hrecord) (his.of_record hrecord)
    · obtain ⟨-, rest, rfl, hrest⟩ := his.of_emit
      have hmore := ih (h.emit hne hink) hrest
      rwa [List.append_assoc] at hmore

/-- The end of a word sets it. Its scope is the innermost one, and the block of the page is its own.
-/
theorem Opened.closeScope (h : m.Opened c s v) :
    (m.apply .closeScope).Sets c (s.word v) := by
  obtain ⟨outer, houter⟩ := h.blocks
  have hpage := h.page.closeWord houter
  have hclose : m.apply .closeScope =
      { m with scopes := c.scopes, page := m.page.closeWord } :=
    apply_closeScope_of_word h.scopes_eq
  rw [hclose]
  refine ⟨?_, h.isVisible, hpage⟩
  have hpagewidth : m.page.closeWord.width = c.width := by
    rw [← h.width_eq, ← Sheet.width_word s v]
    exact congrArg Sheet.width hpage.sheet_eq
  simp only [context, hpagewidth, Page.settings_closeWord, h.settings_eq]

/-- A space between words. -/
theorem Sets.appendSpace (h : m.Sets c s) : (m.onPage Page.appendSpace).Sets c s.space :=
  h.onPage h.page.appendSpace (Sheet.width_space s) (Page.settings_appendSpace m.page)

/-- Where lines are filled, a blank is a space, whatever characters it has. -/
theorem Sets.blank (h : m.Sets c s) (b : Text) : (m.apply (.blank b)).Sets c s.space := by
  rw [apply_blank_of_fill h.isVisible h.page.noFill_eq]
  exact h.appendSpace

/-- Where lines are filled, the end of a source line is a space. -/
theorem Sets.endLine (h : m.Sets c s) : (m.apply .endLine).Sets c s.space := by
  have heq : m.apply .endLine = m.onPage Page.appendSpace := by
    simp only [apply, h.output_eq, h.page.noFill_eq]
    rfl
  rw [heq]
  exact h.appendSpace

/-- Where lines are filled, the beginning of a source line does nothing. -/
theorem Sets.beginLine (h : m.Sets c s) : (m.apply .beginLine).Sets c s := by
  have heq : m.apply .beginLine = m := by
    simp only [apply, h.page.noFill_eq]
    rfl
  rw [heq]
  exact h

/-- A record makes no difference to a machine that sets a sheet. -/
theorem Sets.record (h : m.Sets c s) (hi : i.isRecord = true) : (m.apply i).Sets c s := by
  cases i with
  | consume | note | warn => exact ⟨h.context_eq, h.isVisible, h.page⟩
  | _ => exact Bool.noConfusion hi

/-- Records change nothing but the trace and the warnings. By induction on the instructions. -/
theorem exists_exec_records (m : Machine) (his : ∀ i ∈ is, i.isRecord = true) :
    ∃ entries reports, m.exec is = { m with entries := entries, reports := reports } := by
  induction is generalizing m with
  | nil => exact ⟨m.entries, m.reports, rfl⟩
  | cons i is ih =>
    obtain ⟨hi, hrest⟩ := List.forall_mem_cons.mp his
    obtain ⟨entries, reports, hexec⟩ := ih (m.apply i) hrest
    refine ⟨entries, reports, ?_⟩
    rw [exec_cons, hexec]
    cases i with
    | consume | note | warn => rfl
    | _ => exact Bool.noConfusion hi

/-! ## Lines of prose -/

/-- A machine that has set words on lines, the latest line first, above other lines, and is ready
for the next word. -/
structure Fills (c : Context) (base lines : List Text) (m : Machine) : Prop where
  exists_sheet : ∃ s, m.Sets c s ∧ s.Ready base lines

/-- The sheet that a machine sets has the width of its context. -/
theorem Sets.width_eq (h : m.Sets c s) : s.width = c.width := by
  rw [← h.page.sheet_eq, ← h.context_eq]
  rfl

/-- The sheet that a machine sets has the padding of its context. -/
theorem Sets.padding_eq (h : m.Sets c s) : s.padding = c.padding := by
  rw [← h.page.sheet_eq, ← h.context_eq]
  rfl

end Machine

/-- A word is ink. Its characters are those of the texts that are shown, and each of these is ink.
-/
theorem IsWord.isInk (h : IsWord v is) : v.isInk = true := by
  rw [← h.shown_eq, Text.isInk_iff]
  intro c hc
  obtain ⟨i, hi, hc⟩ := List.mem_flatMap.mp hc
  rcases h.each i hi with hrecord | ⟨t, rfl, -, hink⟩
  · cases i with
    | consume | note | warn => exact absurd hc List.not_mem_nil
    | _ => exact Bool.noConfusion hrecord
  · exact Text.isInk_iff.mp hink c hc

/-- Words added to lines, those without characters left out. -/
def Text.addWords (padding width : Nat) (lines ws : List Text) : List Text :=
  (ws.filter fun w => w ≠ []).foldl (Text.addWord padding width) lines

/-- A word that stands for nothing is not added to the lines. -/
theorem Text.addWords_cons_nil (padding width : Nat) (lines ws : List Text) :
    Text.addWords padding width lines ([] :: ws) = Text.addWords padding width lines ws := by
  simp [Text.addWords]

/-- A word that stands for something is added before the words behind it. -/
theorem Text.addWords_cons (padding width : Nat) (lines ws : List Text) (hne : v ≠ []) :
    Text.addWords padding width lines (v :: ws) =
      Text.addWords padding width (Text.addWord padding width lines v) ws := by
  simp [Text.addWords, hne]

/-- Words added one after another. -/
theorem Text.addWords_append (padding width : Nat) (lines ws vs : List Text) :
    Text.addWords padding width lines (ws ++ vs) =
      Text.addWords padding width (Text.addWords padding width lines ws) vs := by
  simp [Text.addWords]

namespace Machine

/-- A word, and the space behind it or the end of the line.

**Proof sketch.** The word is opened, filled and closed, which sets it on the sheet of the page. The
space behind it is set alike, whether it comes of a blank or of the end of the line. A word without
characters leaves the sheet as it is. -/
theorem Fills.word (h : m.Fills c base lines) (his : IsWord v is) {js : List Instr}
    (hjs : js = [.endLine] ∨ ∃ t b, js = [.consume t, .blank b]) :
    (m.exec (.openWord :: is ++ .closeScope :: js)).Fills c base
      (Text.addWords c.padding c.width lines [v]) := by
  obtain ⟨s, hsets, hready⟩ := h
  have hword : (((m.apply .openWord).exec is).apply .closeScope).Sets c (s.word v) :=
    (hsets.openWord.exec his).closeScope
  have hspace : (m.exec (.openWord :: is ++ .closeScope :: js)).Sets c (s.word v).space := by
    rw [exec_append, exec_cons, exec_cons]
    rcases hjs with rfl | ⟨t, b, rfl⟩
    · exact hword.endLine
    · exact (hword.record (i := .consume t) rfl).blank b
  refine ⟨_, hspace, ?_⟩
  by_cases hne : v = []
  · rw [hne, Sheet.word_nil, hready.space, Text.addWords_cons_nil]
    exact hready
  · rw [Text.addWords_cons _ _ _ _ hne, ← hsets.width_eq, ← hsets.padding_eq]
    exact hready.word hne his.isInk

/-- **A line of prose.** Its words are added to the lines, those without characters left out.

**Proof sketch.** By induction on the line. Each word is set with the space behind it; blanks before
the first word are dropped, as the lines are ready for a word. -/
theorem Fills.text (h : m.Fills c base lines) (his : IsText ws is) :
    (m.exec is).Fills c base (Text.addWords c.padding c.width lines ws) := by
  induction his generalizing m lines with
  | done =>
    obtain ⟨s, hsets, hready⟩ := h
    have hspace := hsets.endLine
    rw [hready.space] at hspace
    exact ⟨s, hspace, hready⟩
  | blank t b _ ih =>
    obtain ⟨s, hsets, hready⟩ := h
    have hspace := (hsets.record (i := .consume t) rfl).blank b
    rw [hready.space] at hspace
    exact ih ⟨s, hspace, hready⟩
  | last his => exact h.word his (Or.inl rfl)
  | @word t b v ws is js his _ ih =>
    have hword := h.word his (Or.inr ⟨t, b, rfl⟩)
    have hmore := ih hword
    have happend : Instr.openWord :: is ++ .closeScope :: .consume t :: .blank b :: js =
        (.openWord :: is ++ .closeScope :: [.consume t, .blank b]) ++ js := by simp
    rw [happend, exec_append, ← List.singleton_append, Text.addWords_append]
    exact hmore

/-- The beginning of a source line leaves the lines as they are. -/
theorem Fills.beginLine (h : m.Fills c base lines) :
    (m.apply .beginLine).Fills c base lines := by
  obtain ⟨s, hsets, hready⟩ := h
  exact ⟨s, hsets.beginLine, hready⟩

/-- **Lines of prose.** -/
theorem Fills.prose (h : m.Fills c base lines) (his : IsLines ws is) :
    (m.exec is).Fills c base (Text.addWords c.padding c.width lines ws) := by
  induction his generalizing m lines with
  | nil => exact h
  | line htext _ ih =>
    rw [List.cons_append, exec_cons, exec_append, Text.addWords_append]
    exact ih (h.beginLine.text htext)

end Machine

/-! ## The instructions for prose -/

/-- An instruction that cannot fail and sets no font. -/
def Instr.isPlain (i : Instr) : Bool :=
  i.isSafe && !i.setsFont

/-- An instruction that is plain cannot fail. -/
theorem Instr.isSafe_of_isPlain (h : i.isPlain = true) : i.isSafe = true :=
  (Bool.and_eq_true_iff.mp h).1

/-- An instruction that is plain sets no font. -/
theorem Instr.setsFont_of_isPlain (h : i.isPlain = true) : i.setsFont = false := by
  simpa using (Bool.and_eq_true_iff.mp h).2

/-- A record is plain. -/
theorem Instr.isPlain_of_isRecord (h : i.isRecord = true) : i.isPlain = true := by
  cases i with
  | consume | note | warn => rfl
  | _ => exact Bool.noConfusion h

/-- The instructions for a word are plain. -/
theorem IsWord.isPlain (h : IsWord v is) : ∀ i ∈ is, i.isPlain = true := by
  intro i hi
  rcases h.each i hi with hrecord | ⟨t, rfl, -, -⟩
  · exact Instr.isPlain_of_isRecord hrecord
  · rfl

/-- The instructions for the words of a line are plain. By induction on the words. -/
theorem IsText.isPlain (h : IsText ws is) : ∀ i ∈ is, i.isPlain = true := by
  induction h with
  | done => simp [Instr.isPlain, Instr.isSafe, Instr.setsFont]
  | blank t b _ ih => simpa [Instr.isPlain, Instr.isSafe, Instr.setsFont] using ih
  | last hword =>
    have his := hword.isPlain
    simp only [List.cons_append, List.mem_cons, List.mem_append, List.not_mem_nil, or_false]
    rintro i (rfl | hi | rfl | rfl) <;> first | exact his i hi | rfl
  | word t b hword _ ih =>
    have his := hword.isPlain
    simp only [List.cons_append, List.mem_cons, List.mem_append]
    rintro i (rfl | hi | rfl | rfl | rfl | hi) <;> first | exact his i hi | exact ih i hi | rfl

/-- The instructions for lines are plain. By induction on the lines. -/
theorem IsLines.isPlain (h : IsLines ws is) : ∀ i ∈ is, i.isPlain = true := by
  induction h with
  | nil => simp
  | line htext _ ih =>
    simp only [List.cons_append, List.mem_cons, List.mem_append]
    rintro i (rfl | hi | hi)
    · rfl
    · exact htext.isPlain i hi
    · exact ih i hi

end Manpage
