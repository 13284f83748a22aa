import Manpage.Proofs.Machine.Hidden
import Manpage.Proofs.Machine.Shown
import Manpage.Proofs.Program.Called
import Manpage.Proofs.Token.Occurrence

/-!
# Machines that a source reaches

What comes before a macro at the top of a source is interpreted as if it were a source of its own.
From the machine that it leaves on, the macro and the lines after it are interpreted.

## Main definitions

* `Manpage.Machine.Reached` — a machine that the first lines of a source leave.

## Main results

* `Manpage.Machine.Reached.interpretSource_eq` — the rest of a source.
-/

namespace Manpage

variable {source : Text} {above rest : List Text} {requested : Option Section} {width : Int}
  {m : Machine}

namespace Machine

/-- Instructions do not change which section is asked for. -/
theorem requested_exec (m : Machine) (is : List Instr) : (m.exec is).requested = m.requested := by
  induction is generalizing m with
  | nil => rfl
  | cons i is ih => exact (ih (m.apply i)).trans (requested_apply m i)

/-- A machine that has interpreted the first lines of a source without a fault, where none of them
has left a tag to come. -/
structure Reached (requested : Option Section) (width : Int) (above : List Text) (m : Machine) :
    Prop where
  run_eq : (started requested width).run (program requested.isSome (Token.ofLines 1 above)) =
    ⟨m, none⟩
  no_tag : .tag ∉ (feedAll requested.isSome [] (Token.ofLines 1 above)).frames

/-- A source is reached from its beginning. -/
theorem reached_nil (requested : Option Section) (width : Int) :
    Reached requested width [] (started requested width) :=
  ⟨rfl, List.not_mem_nil⟩

namespace Reached

/-- **The rest of a source**, from a line on that calls a macro, is interpreted by the machine that
the lines above leave. -/
theorem interpretSource_eq (h : m.Reached requested width above)
    (hsource : source.splitLines = above ++ rest) {t : Token} {ts : List Token}
    (htokens : Token.ofLines (1 + above.length) rest = t :: ts) (hk : t.kind = .macroName)
    (hl : t.startsLine = true) :
    interpretSource source requested width =
      m.run (program requested.isSome (Token.ofLines (1 + above.length) rest)) := by
  obtain ⟨q, hbefore, hq⟩ := Stage.after_ofLines 1 above (s := .between) rfl
  have hprogram : program requested.isSome (Token.ofSource source) =
      program requested.isSome (Token.ofLines 1 above) ++
        program requested.isSome (Token.ofLines (1 + above.length) rest) := by
    rw [Token.ofSource, hsource, Token.ofLines_append, htokens]
    exact program_append_called hbefore hq h.no_tag hk hl
  have hrun : interpretSource source requested width =
      (started requested width).run (program requested.isSome (Token.ofSource source)) := rfl
  rw [hrun, hprogram, run_append_of_run_eq h.run_eq]

/-- A machine that the first lines of a source leave isolates the section that the source is
interpreted for. -/
theorem requested_eq (h : m.Reached requested width above) : m.requested = requested := by
  have hrun := h.run_eq
  rw [run_eq_exec_of_fault_eq_none (by rw [hrun])] at hrun
  obtain rfl := congrArg Outcome.machine hrun
  exact requested_exec (started requested width) _

end Reached

end Machine

end Manpage
