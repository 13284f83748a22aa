import Manpage.Proofs.Machine.Plain
import Manpage.Proofs.Program.Hidden

/-!
# Machines that hide a section

Records have no influence on the rest of a machine, and where another section is current than the
one that is asked for, shown texts have none at all. So the machine comes to the same end, records
apart, with any two programs of which the same is seen.

As long as the section that is asked for is never entered, nothing whatsoever reaches the page.

## Main definitions

* `Manpage.Machine.unrecorded`, `Manpage.Outcome.unrecorded` — a machine without its trace and its
  warnings, and an outcome without these and without the column of its fault.
* `Manpage.Page.IsUntouched` — nothing stands on a page, not even blanks.

## Main results

* `Manpage.Machine.run_congr_of_seen` — programs of which the same is seen.
* `Manpage.Machine.isUntouched_run` — programs that never enter the section.
-/

namespace Manpage

/-! ## Records -/

/-- The machine without its trace and its warnings. -/
def Machine.unrecorded (m : Machine) : Machine :=
  { m with entries := [], reports := [] }

/-- The outcome without trace and warnings, its fault without a column. -/
def Outcome.unrecorded (o : Outcome) : Outcome :=
  ⟨o.machine.unrecorded, o.fault.map Fault.flush⟩

namespace Machine

variable {m n : Machine} {s : Section} {i j : Instr} {is js : List Instr}

/-- Output does the same to a machine without its records, since it reads none of them. -/
theorem unrecorded_output (m : Machine) (f : Page → Page) :
    (m.output f).unrecorded = (m.unrecorded.output f).unrecorded := by
  have hvisible : m.unrecorded.isVisible = m.isVisible := rfl
  rw [output, output, hvisible]
  split <;> rfl

/-- The end of a scope does the same to a machine without its records. -/
theorem unrecorded_closeScope (m : Machine) :
    m.closeScope.unrecorded = m.unrecorded.closeScope.unrecorded := by
  obtain ⟨page, requested, current, entries, reports, scopes, consumed⟩ := m
  rcases scopes with _ | ⟨_ | saved | amount, outer⟩
  · rfl
  · rfl
  · rfl
  · exact unrecorded_output _ _

/-- What an instruction does to a machine, records apart, does not depend on the records. Only the
records are written by instructions that make them, and none of the others reads them. -/
theorem unrecorded_apply (m : Machine) (i : Instr) :
    (m.apply i).unrecorded = (m.unrecorded.apply i).unrecorded := by
  have hpage : m.unrecorded.page = m.page := rfl
  cases i with
  | beginLine =>
    rw [apply, apply, hpage]
    split
    · exact unrecorded_output m Page.lineBreak
    · rfl
  | endLine =>
    rw [apply, apply, hpage]
    split
    · rfl
    · exact unrecorded_output m Page.appendSpace
  | closeScope => exact unrecorded_closeScope m
  | emit | space | blank | emptyLine | lineBreak | blankLine | skipLines =>
    exact unrecorded_output m _
  | openTag amount =>
    exact congrArg (enter · _) (unrecorded_output (m.onPage fun p => { p with indent := 0 }) _)
  | _ => rfl

/-- Without the columns of its tokens, an instruction does the same to a machine, records apart. -/
theorem unrecorded_apply_flush (m : Machine) (i : Instr) :
    (m.apply i.flush).unrecorded = (m.apply i).unrecorded := by
  cases i <;> rfl

/-- Instructions that agree up to columns do the same to machines that agree up to records. -/
theorem unrecorded_apply_congr (h : m.unrecorded = n.unrecorded) (hij : i.flush = j.flush) :
    (m.apply i).unrecorded = (n.apply j).unrecorded := by
  rw [← unrecorded_apply_flush, hij, unrecorded_apply_flush, unrecorded_apply, h,
    ← unrecorded_apply]

/-- Without the columns of its tokens, an instruction has the same fault, but for the column in
that. The records have no say in it. -/
theorem fault?_flush (m : Machine) (i : Instr) :
    m.unrecorded.fault? i.flush = (m.fault? i).map Fault.flush := by
  cases i with
  | closeMargins count t =>
    have hpage : m.unrecorded.page = m.page := rfl
    rw [Instr.flush, fault?, fault?, hpage]
    split <;> rfl
  | _ => rfl

/-- Machines that differ in their records only fail alike, at instructions that differ in columns
only. -/
theorem fault?_congr (h : m.unrecorded = n.unrecorded) (hij : i.flush = j.flush) :
    (m.fault? i).map Fault.flush = (n.fault? j).map Fault.flush := by
  rw [← fault?_flush, h, hij, fault?_flush]

/-- Leaving all scopes does the same to a machine without its records. -/
theorem unrecorded_unwind (m : Machine) : m.unwind.unrecorded = m.unrecorded.unwind := by
  have habandon : ∀ (m : Machine) (s : Scope), m.unrecorded.abandon s = (m.abandon s).unrecorded :=
    fun m s => by cases s <;> rfl
  exact (List.foldl_hom unrecorded habandon).symm

/-- Machines that differ in their records only still do so when they have left all their scopes. -/
theorem unrecorded_unwind_congr (h : m.unrecorded = n.unrecorded) :
    m.unwind.unrecorded = n.unwind.unrecorded := by
  rw [unrecorded_unwind, h, unrecorded_unwind]

/-- Programs that agree up to columns bring machines that agree up to records to the same end.

**Proof sketch.** By induction on the programs. Instructions that agree up to columns do the same up
to records, and fail with faults that agree up to columns. -/
theorem run_congr (h : m.unrecorded = n.unrecorded)
    (his : is.map Instr.flush = js.map Instr.flush) :
    (m.run is).unrecorded = (n.run js).unrecorded := by
  induction is generalizing m n js with
  | nil =>
    obtain rfl : js = [] := by simpa using his.symm
    exact congrArg (Outcome.mk · none) h
  | cons i is ih =>
    obtain ⟨j, js, rfl, hj, hjs⟩ := List.map_eq_cons_iff.mp his.symm
    have happly := unrecorded_apply_congr h hj.symm
    have hfault := fault?_congr h hj.symm
    rw [run, run]
    cases hi : m.fault? i <;> cases hj : n.fault? j <;> rw [hi, hj] at hfault
    · exact ih happly hjs.symm
    · exact absurd hfault (by simp)
    · exact absurd hfault (by simp)
    · simp only [Outcome.unrecorded, hfault, unrecorded_unwind_congr happly]

/-! ## Sections -/

/-- The section that is asked for and the current one, which settle what is visible. -/
def sections (m : Machine) : Option Section × Option Section :=
  (m.requested, m.current)

/-- Output changes no section. -/
theorem sections_output (m : Machine) (f : Page → Page) : (m.output f).sections = m.sections := by
  unfold output
  split <;> rfl

/-- The end of a scope changes no section. -/
theorem sections_closeScope (m : Machine) : m.closeScope.sections = m.sections := by
  unfold closeScope
  split <;> first | rfl | exact sections_output _ _

/-- One instruction alone enters a section. Output and scopes leave the section alone. -/
theorem sections_apply (m : Machine) (i : Instr) :
    (m.apply i).sections = (m.requested, i.sectionAfter m.current) := by
  cases i with
  | beginLine | endLine =>
    simp only [apply]
    split <;> first | rfl | exact sections_output m _
  | closeScope => exact sections_closeScope m
  | emit | space | blank | emptyLine | lineBreak | blankLine | skipLines =>
    exact sections_output m _
  | openTag => exact sections_output _ _
  | _ => rfl

/-- The section that is asked for stays the same. -/
theorem requested_apply (m : Machine) (i : Instr) : (m.apply i).requested = m.requested :=
  congrArg Prod.fst (sections_apply m i)

/-- The section that is current after an instruction follows from the one before it and the
instruction alone. -/
theorem current_apply (m : Machine) (i : Instr) :
    (m.apply i).current = i.sectionAfter m.current :=
  congrArg Prod.snd (sections_apply m i)

/-- Nothing is visible outside of the section that is asked for. -/
theorem output_eq_of_hidden (hs : m.requested = some s) (hcurrent : m.current ≠ some s)
    (f : Page → Page) : m.output f = m := by
  have hvisible : m.isVisible = false := by
    simpa [isVisible, hs] using Ne.symm hcurrent
  simp [output, hvisible]

/-! ## Hidden texts -/

/-- An instruction that is mute does nothing to a machine but record, while another section is
current than the one asked for. -/
theorem unrecorded_apply_of_isMute (hs : m.requested = some s)
    (hi : i.isMute s m.current = true) : (m.apply i).unrecorded = m.unrecorded := by
  cases i with
  | consume | note | warn => rfl
  | emit text =>
    have hcurrent : m.current ≠ some s := by
      simpa [Instr.isMute, Instr.isRecord, Instr.isEmit] using hi
    rw [apply, output_eq_of_hidden hs hcurrent]
  | _ => exact Bool.noConfusion hi

/-- An instruction that is mute cannot fail. -/
theorem fault?_of_isMute (m : Machine) {current : Option Section}
    (hi : i.isMute s current = true) : m.fault? i = none := by
  cases i with
  | closeMargins | fault => exact Bool.noConfusion hi
  | _ => rfl

/-- What is seen of a program comes to the same end as the program, records apart.

**Proof sketch.** By induction on the program. What is left out only writes records, as nothing is
shown where the section is hidden. -/
theorem run_seen (hs : m.requested = some s) (is : List Instr) :
    (m.run (seen s m.current is)).unrecorded = (m.run is).unrecorded := by
  induction is generalizing m with
  | nil => rfl
  | cons i is ih =>
    have hs' : (m.apply i).requested = some s := (requested_apply m i).trans hs
    specialize ih hs'
    rw [current_apply] at ih
    rw [seen]
    split <;> rename_i hi
    · -- the machine is as it was, up to records
      have hrun : (m.run (i :: is)) = (m.apply i).run is := by
        rw [run, fault?_of_isMute m hi]
      rw [hrun, ← ih]
      exact run_congr (unrecorded_apply_of_isMute hs hi).symm rfl
    · rw [run, run]
      split
      · rfl
      · exact ih

/-- **Hidden texts.** Programs of which the same is seen, up to columns, bring the machine to the
same end, records apart. -/
theorem run_congr_of_seen (hs : m.requested = some s)
    (h : (seen s m.current is).map Instr.flush = (seen s m.current js).map Instr.flush) :
    (m.run is).unrecorded = (m.run js).unrecorded := by
  rw [← run_seen hs, run_congr rfl h, run_seen hs]

end Machine

/-! ## Untouched pages -/

/-- Nothing stands on the page, not even blanks. -/
structure Page.IsUntouched (p : Page) : Prop where
  finished_eq : p.finished = []
  line_eq : p.line = []
  pieces_eq : ∀ w, p.word = some w → w.pieces = []

namespace Page.IsUntouched

variable {p q : Page}

/-- The text of a page that is untouched is empty. No line is finished, and nothing is on the
current one or in its word. -/
theorem text_eq_nil (h : p.IsUntouched) : p.text = [] := by
  have hline : p.currentLine = [] := by
    unfold currentLine
    split
    · exact h.line_eq
    · rename_i w hw
      rw [h.pieces_eq w hw, h.line_eq, List.nil_append]
  rw [text, shown, h.finished_eq, hline]
  rfl

/-- A page with the lines and the open word of an untouched one. -/
theorem of_eq (h : p.IsUntouched) (hfinished : q.finished = p.finished) (hline : q.line = p.line)
    (hword : q.word = p.word) : q.IsUntouched :=
  ⟨hfinished.trans h.finished_eq, hline.trans h.line_eq,
    fun w hw => h.pieces_eq w (hword.symm.trans hw)⟩

/-- Opening a word leaves a page untouched. -/
theorem openWord (h : p.IsUntouched) : p.openWord.IsUntouched := by
  unfold Page.openWord
  split
  · exact h.of_eq rfl rfl rfl
  · exact ⟨h.finished_eq, h.line_eq, fun w hw => by cases hw; rfl⟩

/-- Completing a word leaves an untouched page so, since the word has no pieces. -/
theorem completeWord (h : p.IsUntouched) : p.completeWord.IsUntouched := by
  unfold Page.completeWord
  split
  · exact h
  · rename_i w hw
    have hpieces := h.pieces_eq w hw
    -- a word without pieces overflows no line
    rw [if_neg (by simp [hpieces])]
    refine ⟨h.finished_eq, ?_, fun w hw => by cases hw⟩
    rw [settleWord, hpieces, h.line_eq, List.nil_append]

/-- Closing the block of a word leaves an untouched page so. A word without pieces adds nothing to
the line. -/
theorem closeWord (h : p.IsUntouched) : p.closeWord.IsUntouched := by
  unfold Page.closeWord
  split
  · exact h
  · rename_i owner outer _
    have hblocks : IsUntouched { p with blocks := outer } := h.of_eq rfl rfl rfl
    split
    · exact hblocks.completeWord
    · exact hblocks

end Page.IsUntouched

namespace Machine

variable {m : Machine} {s : Section} {i : Instr} {is : List Instr}

/-- Outside of the section that is asked for, output leaves an untouched page. -/
theorem isUntouched_output (h : m.page.IsUntouched) (hs : m.requested = some s)
    (hcurrent : m.current ≠ some s) (f : Page → Page) : (m.output f).page.IsUntouched := by
  rw [output_eq_of_hidden hs hcurrent]
  exact h

/-- The end of a scope leaves an untouched page so, while another section is current than the one
asked for: a tag ends its line there without output. -/
theorem isUntouched_closeScope (h : m.page.IsUntouched) (hs : m.requested = some s)
    (hcurrent : m.current ≠ some s) : m.closeScope.page.IsUntouched := by
  unfold closeScope
  split
  · exact h
  · exact h.closeWord
  · exact h.of_eq rfl rfl rfl
  · refine isUntouched_output (s := s) ?_ ?_ ?_ Page.lineBreak
    · exact h.of_eq rfl rfl rfl
    · exact hs
    · exact hcurrent

/-- Outside of the section that is asked for, an instruction leaves an untouched page.

**Proof sketch.** By cases on the instruction. Output is hidden, and what is left are words,
settings and margins, none of which puts a piece on the page. -/
theorem isUntouched_apply (h : m.page.IsUntouched) (hs : m.requested = some s)
    (hcurrent : m.current ≠ some s) (i : Instr) : (m.apply i).page.IsUntouched := by
  cases i with
  | consume | note | warn | enterSection | fault => exact h
  | emit | space | blank | emptyLine | lineBreak | blankLine | skipLines =>
    exact isUntouched_output h hs hcurrent _
  | beginLine | endLine =>
    rw [apply, output_eq_of_hidden hs hcurrent, ite_self]
    exact h
  | openWord => exact h.openWord
  | openTag =>
    have hindent : (m.onPage fun p => { p with indent := 0 }).page.IsUntouched :=
      h.of_eq rfl rfl rfl
    exact isUntouched_output hindent hs hcurrent Page.lineBreak
  | closeScope => exact isUntouched_closeScope h hs hcurrent
  | _ => exact h.of_eq rfl rfl rfl

/-- Leaving all scopes leaves an untouched page so, since nothing is put on a page then. -/
theorem isUntouched_unwind (h : m.page.IsUntouched) : m.unwind.page.IsUntouched := by
  unfold unwind
  refine List.foldlRecOn (motive := fun m => m.page.IsUntouched) m.scopes abandon ?_ ?_
  · exact h
  · intro m h s _
    cases s with
    | word => exact h.closeWord
    | style => exact h.of_eq rfl rfl rfl
    | tag => exact h

/-- **No section.** A program that never enters the section that is asked for leaves an untouched
page.

**Proof sketch.** By induction on the program. Each instruction leaves the page untouched and the
section as it was, unless it enters one, which is not the one that is asked for. -/
theorem isUntouched_run (h : m.page.IsUntouched) (hs : m.requested = some s)
    (hcurrent : m.current ≠ some s) (his : .enterSection s ∉ is) :
    (m.run is).machine.page.IsUntouched := by
  induction is generalizing m with
  | nil => exact h
  | cons i is ih =>
    have happly := isUntouched_apply h hs hcurrent i
    rw [run]
    split
    · exact isUntouched_unwind happly
    · have hcurrent' : (m.apply i).current ≠ some s := by
        rw [current_apply]
        cases i with
        | enterSection s' =>
          intro heq
          obtain rfl : s' = s := Option.some.inj heq
          exact his List.mem_cons_self
        | _ => exact hcurrent
      exact ih happly ((requested_apply m i).trans hs) hcurrent'
        fun hmem => his (List.mem_cons_of_mem i hmem)

end Machine

end Manpage
