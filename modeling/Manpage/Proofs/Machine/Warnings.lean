import Manpage.Proofs.Machine.Trace
import Manpage.Proofs.Program.Warnings

/-!
# The warnings of an interpretation

A machine records a warning for each instruction that asks for one, in order, up to the place where
the interpretation stops.

## Main definitions

* `Manpage.warningsOf` — the warnings that instructions ask for.

## Main results

* `Manpage.Machine.exists_warnings_run` — the warnings of a program that is carried out.
-/

namespace Manpage

/-- The warnings that instructions ask for, in order. -/
def warningsOf (is : List Instr) : List Warning :=
  (anomaliesOf is).map fun p => Warning.about p.1 p.2

/-- The warnings of two programs are those of the first and those of the second. -/
theorem warningsOf_append (is js : List Instr) :
    warningsOf (is ++ js) = warningsOf is ++ warningsOf js := by
  rw [warningsOf, anomaliesOf_append, List.map_append]
  rfl

namespace Machine

variable {m : Machine} {i : Instr} {is : List Instr} {cause : Fault}

/-- What one instruction adds to the warnings. -/
theorem warnings_apply (m : Machine) (i : Instr) :
    (m.apply i).warnings = m.warnings ++ warningsOf [i] := by
  have hothers : i.isRecord = false → (m.apply i).warnings = m.warnings :=
    fun hi => congrArg (fun r => r.2.reverse) (m.records_apply hi)
  cases i with
  | warn anomaly t => exact List.reverse_cons
  | consume | note => exact (List.append_nil _).symm
  | _ => exact (hothers rfl).trans (List.append_nil _).symm

/-- What instructions add to the warnings. -/
theorem warnings_exec (m : Machine) (is : List Instr) :
    (m.exec is).warnings = m.warnings ++ warningsOf is := by
  induction is generalizing m with
  | nil => exact (List.append_nil _).symm
  | cons i is ih =>
    rw [exec_cons, ih, warnings_apply, List.append_assoc, ← warningsOf_append]
    rfl

/-- An instruction that fails warns of nothing. -/
theorem warningsOf_of_fault? (h : m.fault? i = some cause) : warningsOf [i] = [] := by
  cases i with
  | closeMargins | fault => rfl
  | _ => exact absurd h (by simp [fault?])

/-- **A machine records what its program warns of**, as far as it comes. Leaving the scopes at a
fault warns of nothing, and neither does the instruction that has the fault. -/
theorem exists_warnings_run (m : Machine) (is : List Instr) :
    ∃ done, done <+: is ∧ ((m.run is).fault = none → done = is) ∧
      (m.run is).machine.warnings = m.warnings ++ warningsOf done := by
  rcases run_cases m is with hrun | ⟨before, i, after, cause, his, -, hcause, hrun⟩
  · rw [hrun]
    exact ⟨is, List.prefix_refl is, fun _ => rfl, m.warnings_exec is⟩
  · rw [hrun]
    refine ⟨before, ⟨_, his.symm⟩, fun hnone => absurd hnone (by simp), ?_⟩
    have hunwind : ((m.exec before).apply i).unwind.warnings =
        ((m.exec before).apply i).warnings :=
      congrArg (fun r => r.2.reverse) (records_unwind _)
    rw [hunwind, warnings_apply, warningsOf_of_fault? hcause, List.append_nil, warnings_exec]

end Machine

end Manpage
