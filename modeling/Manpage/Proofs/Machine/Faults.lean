import Manpage.Proofs.Program.Reading
import Manpage.Render

/-!
# Faults of sources

What the reading of a source and the carrying out of its program agree on: of the faults that
tokens out of order would have, none occurs for the tokens of a source.

## Main results

* `Manpage.Machine.fault_run` — the faults of sound instructions.
* `Manpage.interpretSource_fault` — the faults of sources.
-/

namespace Manpage

/-- The faults that are left where tokens come in order: a number may be too large, and the macro
that closes margin scopes may close more than are open. -/
def Fault.IsOrdinary (tokens : List Token) : Fault → Prop
  | .numberOverflow => True
  | .marginUnderflow t => t ∈ tokens ∧ t.kind = .macroName ∧ t.value = ['.', 'R', 'E']
  | _ => False

namespace Machine

variable {tokens : List Token} {m : Machine} {i : Instr} {is : List Instr} {cause : Fault}

/-- The fault of a sound instruction. It is a number that overflows, or too many scopes are closed
by the macro that does so. -/
theorem isOrdinary_of_fault? (hi : i.IsSound tokens) (h : m.fault? i = some cause) :
    cause.IsOrdinary tokens := by
  cases i with
  | closeMargins count t =>
    obtain ⟨ht, hk, hname⟩ := hi
    simp only [fault?] at h
    split at h
    · obtain rfl := Option.some.inj h
      exact ⟨ht, hk, Macro.ofName?_eq_closeMargin hname⟩
    · exact absurd h (by simp)
  | fault c =>
    obtain rfl : c = .numberOverflow := hi
    obtain rfl := Option.some.inj h
    trivial
  | _ => exact absurd h (by simp [fault?])

/-- Sound instructions are carried out to the end, or have one of the faults that are left. By
induction on the instructions, the first fault being the one that is left. -/
theorem fault_run (h : ∀ i ∈ is, i.IsSound tokens) :
    ∀ cause ∈ (m.run is).fault, cause.IsOrdinary tokens := by
  induction is generalizing m with
  | nil => simp [run]
  | cons i is ih =>
    simp only [run]
    split
    · rename_i cause hcause
      intro c hc
      obtain rfl : cause = c := by simpa using hc
      exact isOrdinary_of_fault? (h i List.mem_cons_self) hcause
    · exact ih fun j hj => h j (List.mem_cons_of_mem i hj)

end Machine

/-- A source has an ordinary fault, if any: its program is sound, whatever the machine. -/
theorem isOrdinary_of_interpretSource {source : Text} {requested : Option Section} {width : Int}
    {cause : Fault} (h : (interpretSource source requested width).fault = some cause) :
    cause.IsOrdinary (Token.ofSource source) := by
  have hordinary := Machine.fault_run (m := { Machine.fresh (Page.ofWidth width) requested with
    consumed := true }) (program_carries requested.isSome source).sound
  exact hordinary cause h

/-- **Sources have ordinary faults only.** Whatever the source, the section that is asked for and
the width, the interpretation reaches the end, or a number is too large, or one of the source's
macros closes more margin scopes than are open.

**Proof sketch.** The tokens of a source come in an order in which every part of an escape follows
its beginning, so that the frames that are open never meet a part that they do not wait for. The
program is sound therefore, and sound instructions have no other faults. -/
theorem interpretSource_fault (source : Text) (requested : Option Section) (width : Int) :
    (interpretSource source requested width).fault = none ∨
      (interpretSource source requested width).fault = some .numberOverflow ∨
        ∃ t ∈ Token.ofSource source, t.kind = .macroName ∧ t.value = ['.', 'R', 'E'] ∧
          (interpretSource source requested width).fault = some (.marginUnderflow t) := by
  cases hfault : (interpretSource source requested width).fault with
  | none => exact Or.inl rfl
  | some cause =>
    have h := isOrdinary_of_interpretSource hfault
    cases cause with
    | numberOverflow => exact Or.inr (Or.inl rfl)
    | marginUnderflow t =>
      obtain ⟨ht, hk, hname⟩ := h
      exact Or.inr (Or.inr ⟨t, ht, hk, hname, rfl⟩)
    | alreadyConsumed | missingArgument | strayPart => exact False.elim h

end Manpage
