import Manpage.Proofs.Machine.Plain
import Manpage.Proofs.Program.Trace
import Manpage.Proofs.Program.Word
import Manpage.Render

/-!
# The trace of an interpretation

A machine carries out its program to the end or up to the first instruction that fails, and enters
into the trace what the instructions before that one enter. So every token is entered once, in its
turn, up to the place where the interpretation stops.

## Main definitions

* `Manpage.Machine.recorded` — the trace of a machine in the order of its record.

## Main results

* `Manpage.Machine.run_cases` — a program is carried out to the end, or up to an instruction that
  fails.
* `Manpage.Machine.recorded_interpret` — the trace of any token list.
* `Manpage.recorded_interpretSource` — the trace of a source.
-/

namespace Manpage

namespace Machine

variable {m : Machine} {i : Instr} {is : List Instr} {cause : Fault}

/-! ## Stopping -/

/-- **A program is carried out to the end, or up to an instruction that fails**, with which the
machine leaves all scopes.

**Proof sketch.** By induction on the program: its first instruction fails, or it is carried out
before the others. -/
theorem run_cases (m : Machine) (is : List Instr) :
    m.run is = ⟨m.exec is, none⟩ ∨
      ∃ before i after cause, is = before ++ i :: after ∧ m.run before = ⟨m.exec before, none⟩ ∧
        (m.exec before).fault? i = some cause ∧
        m.run is = ⟨((m.exec before).apply i).unwind, some cause⟩ := by
  induction is generalizing m with
  | nil => exact Or.inl rfl
  | cons i is ih =>
    cases hfault : m.fault? i with
    | some cause =>
      exact Or.inr ⟨[], i, is, cause, rfl, rfl, hfault, by simp only [run, hfault]; rfl⟩
    | none =>
      have hrun : ∀ js, m.run (i :: js) = (m.apply i).run js := fun js => by
        simp only [run, hfault]
      rcases ih (m.apply i) with hall | ⟨before, j, after, cause, rfl, hbefore, hcause, hstop⟩
      · exact Or.inl ((hrun is).trans hall)
      · exact Or.inr ⟨i :: before, j, after, cause, rfl, (hrun before).trans hbefore, hcause,
          (hrun _).trans hstop⟩

/-! ## Records -/

/-- The trace and the warnings of a machine, the latest first. -/
def records (m : Machine) : List TraceEntry × List Warning :=
  (m.entries, m.reports)

/-- Output records nothing. -/
theorem records_output (m : Machine) (f : Page → Page) : (m.output f).records = m.records := by
  unfold output
  split <;> rfl

/-- The end of a scope records nothing. -/
theorem records_closeScope (m : Machine) : m.closeScope.records = m.records := by
  unfold closeScope
  split
  · rfl
  · rfl
  · rfl
  · exact records_output _ _

/-- Leaving all scopes records nothing. -/
theorem records_unwind (m : Machine) : m.unwind.records = m.records := by
  unfold unwind
  refine List.foldlRecOn (motive := fun n => n.records = m.records) m.scopes abandon ?_ ?_
  · rfl
  · intro n hn s _
    cases s <;> exact hn

/-- Instructions other than records leave the trace and the warnings alone. Output and scopes touch
the page and the scopes, and no other instruction but a record writes one. -/
theorem records_apply (m : Machine) (hi : i.isRecord = false) :
    (m.apply i).records = m.records := by
  cases i with
  | consume | note | warn => exact Bool.noConfusion hi
  | closeScope => exact records_closeScope m
  | emit | space | blank | emptyLine | lineBreak | blankLine | skipLines =>
    exact records_output m _
  | openTag => exact records_output _ _
  | beginLine =>
    simp only [apply]
    split
    · exact records_output m _
    · rfl
  | endLine =>
    simp only [apply]
    split
    · rfl
    · exact records_output m _
  | _ => rfl

/-! ## Entries -/

/-- The trace in the order of its record. -/
def recorded (m : Machine) : List TraceEntry :=
  m.entries.reverse

/-- Leaving all scopes enters nothing into the trace. -/
theorem entries_unwind (m : Machine) : m.unwind.entries = m.entries :=
  congrArg Prod.fst m.records_unwind

/-- What one instruction adds to the trace. -/
theorem entries_apply (m : Machine) (i : Instr) :
    (m.apply i).entries = i.entry?.toList ++ m.entries := by
  have hothers : i.isRecord = false → (m.apply i).entries = m.entries :=
    fun hi => congrArg Prod.fst (m.records_apply hi)
  cases i with
  | consume | note | warn => rfl
  | _ => exact hothers rfl

/-- What instructions add to the trace. By induction on the instructions, each of which has one
entry at most. -/
theorem recorded_exec (m : Machine) (is : List Instr) :
    (m.exec is).recorded = m.recorded ++ entriesOf is := by
  induction is generalizing m with
  | nil => simp [entriesOf]
  | cons i is ih =>
    have happly : (m.apply i).recorded = m.recorded ++ i.entry?.toList := by
      rw [recorded, entries_apply, List.reverse_append, recorded]
      cases i.entry? <;> rfl
    rw [exec_cons, ih, happly, entriesOf, List.append_assoc, entriesOf, List.filterMap_cons]
    cases i.entry? <;> rfl

/-- An instruction that fails enters nothing. -/
theorem isEntry_of_fault? (h : m.fault? i = some cause) : i.isEntry = false := by
  cases i with
  | closeMargins | fault => rfl
  | _ => exact absurd h (by simp [fault?])

/-! ## Token lists -/

/-- The trace of a token list is that of a first part of the tokens, of all of them where there is
no fault.

**Proof sketch.** Without a fault the program is carried out as a whole, and it enters the trace of
its tokens. With a fault, what was carried out before is a first part of the program, which has
entered the trace of a first part of the tokens. -/
theorem exists_recorded_eq_traceFrom (page : Page) (requested : Option Section)
    (tokens : List Token) :
    ∃ read, read <+: tokens ∧
      (((fresh page requested).interpret tokens).fault = none → read = tokens) ∧
      ((fresh page requested).interpret tokens).machine.recorded =
        traceFrom requested.isSome [] read := by
  have hfree : ∀ f ∈ ([] : List Frame), f.IsFreeOf Instr.isEntry := List.forall_mem_nil _
  let start : Machine := { fresh page requested with consumed := true }
  have hstart : start.recorded = [] := rfl
  have hinterpret : (fresh page requested).interpret tokens =
      start.run (program requested.isSome tokens) := rfl
  rw [hinterpret]
  rcases run_cases start (program requested.isSome tokens) with
    hrun | ⟨before, i, after, cause, hprogram, -, hcause, hrun⟩
  · have hall : (start.exec (program requested.isSome tokens)).recorded =
        traceFrom requested.isSome [] tokens := by
      rw [recorded_exec, hstart, List.nil_append, program, entriesOf_programFrom hfree]
    rw [hrun, hall]
    exact ⟨tokens, List.prefix_refl tokens, fun _ => rfl, rfl⟩
  · have hi := isEntry_of_fault? hcause
    obtain ⟨read, hread, hentries⟩ := exists_entriesOf_eq_traceFrom hfree hprogram hi
    have hunwind : ((start.exec before).apply i).unwind.recorded =
        traceFrom requested.isSome [] read := by
      rw [recorded, entries_unwind, entries_apply, Instr.entry?_eq_none hi, Option.toList_none,
        List.nil_append, ← recorded, recorded_exec, hstart, List.nil_append, hentries]
    rw [hrun, hunwind]
    exact ⟨read, hread, fun hnone => absurd hnone (by simp), rfl⟩

/-- **Every token is entered once, in its turn, as far as the interpretation comes.** For every
token list, whatever its tokens and their order, every page, and every section that may be asked
for, the interpretation ends, completely or with a fault, and its trace is that of a first part of
the tokens, of all of them where there is no fault. Without the notes on macros without effect, the
trace has the entries of just these tokens, in order. A note stands directly behind the entry of a
macro that has no effect, one for each that is called.

**Proof sketch.** The instructions of one token enter it in one place, with its note. Those of the
token at which the interpretation stops have all been carried out up to that place, or beyond it,
since an instruction that fails enters nothing itself. -/
theorem recorded_interpret (page : Page) (requested : Option Section) (tokens : List Token) :
    ∃ read, read <+: tokens ∧
      (((fresh page requested).interpret tokens).fault = none → read = tokens) ∧
      (((fresh page requested).interpret tokens).machine.recorded.filter
        fun e => !e.isNote).map TraceEntry.text = read.map Token.traceEntry ∧
      ((fresh page requested).interpret tokens).machine.recorded =
        traceFrom requested.isSome [] read := by
  obtain ⟨read, hread, hall, hrecorded⟩ := exists_recorded_eq_traceFrom page requested tokens
  refine ⟨read, hread, hall, ?_, hrecorded⟩
  rw [hrecorded, filter_traceFrom, List.map_map]
  rfl

end Machine

/-- The trace of a source: in it, every macro starts its line, and is called therefore. So its
entries are the tokens that are read, each with a note where it is the name of an unknown macro. -/
theorem recorded_interpretSource (source : Text) (requested : Option Section) (width : Int) :
    ∃ read, read <+: Token.ofSource source ∧
      ((interpretSource source requested width).fault = none → read = Token.ofSource source) ∧
      (interpretSource source requested width).machine.recorded =
        read.flatMap fun t => t.entries t.isUnknownMacro := by
  obtain ⟨read, hread, hall, hrecorded⟩ :=
    Machine.exists_recorded_eq_traceFrom (Page.ofWidth width) requested (Token.ofSource source)
  refine ⟨read, hread, hall, hrecorded.trans (traceFrom_eq_flatMap _ _ fun t ht => ?_)⟩
  exact (Token.isPlaced_of_mem_ofSource (hread.subset ht)).startsLine_of_macroName

end Manpage
