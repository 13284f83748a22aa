import Manpage.Proofs.Machine.Core

/-!
# How many margin scopes are open

Whether a program fails, and where, is decided by the number of margin scopes that are open, which
few of its instructions change. These instructions, carried out on a number, tell how the whole
program ends on any machine.

## Main definitions

* `Manpage.Instr.isMargin`, `Manpage.Instr.isCounted` — what changes the number of open scopes, and
  what decides about the end of a program beside that.
* `Manpage.countScopes` — instructions carried out on a number of open scopes.

## Main results

* `Manpage.countScopes_append` — a first part of the instructions, and the others.
* `Manpage.countScopes_counted` — no other instructions count.
* `Manpage.Machine.run_eq_countScopes` — the end of a program.
-/

namespace Manpage

/-! ## Counting -/

/-- An instruction that opens or closes margin scopes. -/
def Instr.isMargin : Instr → Bool
  | .openMargin _ | .closeMargins _ _ | .clearMargins | .sectionMargin => true
  | _ => false

/-- An instruction that opens or closes margin scopes, or the fault of a number. -/
def Instr.isCounted (i : Instr) : Bool :=
  i.isMargin || i == .fault .numberOverflow

/-- The number of open scopes after an instruction. -/
def Instr.scopesAfter (d : Nat) : Instr → Nat
  | .openMargin _ => d + 1
  | .closeMargins count _ => d - count
  | .clearMargins => 0
  | .sectionMargin => 1
  | _ => d

/-- The fault of an instruction where so many scopes are open. -/
def Instr.faultAt? (d : Nat) : Instr → Option Fault
  | .closeMargins count t => if d < count then some (.marginUnderflow t) else none
  | .fault cause => some cause
  | _ => none

/-- The number of open scopes after instructions, or the first fault. -/
def countScopes (d : Nat) : List Instr → Except Fault Nat
  | [] => .ok d
  | i :: more =>
    match i.faultAt? d with
    | some cause => .error cause
    | none => countScopes (i.scopesAfter d) more

variable {d e : Nat} {i : Instr} {is js : List Instr} {cause : Fault} {m : Machine}

/-- Two programs count one after the other, the second from where the first ends. By induction on
the first: a fault of it is the fault of both. -/
theorem countScopes_append (d : Nat) (is js : List Instr) :
    countScopes d (is ++ js) = (countScopes d is).bind fun e => countScopes e js := by
  induction is generalizing d with
  | nil => rfl
  | cons i is ih =>
    simp only [List.cons_append, countScopes]
    split
    · rfl
    · exact ih _

/-- Two programs count to the end just if the first does, and the second does from there. -/
theorem countScopes_append_eq_ok_iff :
    countScopes d (is ++ js) = .ok e ↔
      ∃ c, countScopes d is = .ok c ∧ countScopes c js = .ok e := by
  rw [countScopes_append]
  cases countScopes d is with
  | error cause => simp [Except.bind]
  | ok c => simp [Except.bind]

/-- What is not counted changes nothing and has no fault. The fault of a number that overflows is
counted, as is all that opens and closes scopes. -/
theorem Instr.eq_of_not_isCounted (h : i.isCounted = false)
    (hfault : ∀ cause, i = .fault cause → cause = .numberOverflow) (d : Nat) :
    i.faultAt? d = none ∧ i.scopesAfter d = d := by
  cases i with
  | fault cause =>
    obtain rfl := hfault cause rfl
    exact absurd h (by decide)
  | openMargin | closeMargins | clearMargins | sectionMargin => exact Bool.noConfusion h
  | _ => exact ⟨rfl, rfl⟩

/-- Of instructions whose faults are those of numbers, only the counted ones matter. Those that do
not count change no number of scopes and bring no fault. -/
theorem countScopes_counted (h : ∀ cause, Instr.fault cause ∈ is → cause = .numberOverflow)
    (d : Nat) : countScopes d (is.filter Instr.isCounted) = countScopes d is := by
  induction is generalizing d with
  | nil => rfl
  | cons i is ih =>
    have hmore : ∀ cause, Instr.fault cause ∈ is → cause = .numberOverflow :=
      fun cause hc => h cause (List.mem_cons_of_mem i hc)
    rw [List.filter_cons]
    split
    · simp only [countScopes]
      split
      · rfl
      · exact ih hmore _
    · rename_i hi
      obtain ⟨hnone, hsame⟩ := Instr.eq_of_not_isCounted (by simpa using hi)
        (fun cause hc => h cause (hc ▸ List.mem_cons_self)) d
      simp only [countScopes, hnone, hsame]
      exact ih hmore d

/-! ## Machines -/

namespace Machine

/-- Whether an instruction fails on a machine depends on the number of its open margin scopes. -/
theorem fault?_eq_faultAt? (m : Machine) (i : Instr) :
    m.fault? i = i.faultAt? m.page.margins.length := by
  cases i <;> rfl

/-- Output leaves the open margin scopes as they are. -/
theorem margins_output {f : Page → Page} (m : Machine)
    (hf : ∀ p, (f p).settings = p.settings) : (m.output f).page.margins = m.page.margins :=
  margins_eq (core_output m hf)

/-- The end of another scope leaves the open margin scopes as they are. -/
theorem margins_closeScope (m : Machine) : m.closeScope.page.margins = m.page.margins := by
  unfold closeScope
  split
  · rfl
  · exact congrArg Page.Settings.margins (Page.settings_closeWord m.page)
  · rfl
  · exact margins_output _ Page.settings_lineBreak

/-- The number of open scopes after an instruction depends on the number before. Output and scopes
of text leave the margins alone. -/
theorem length_margins_apply (m : Machine) (i : Instr) :
    (m.apply i).page.margins.length = i.scopesAfter m.page.margins.length := by
  cases i with
  | emit | space | blank | beginLine | endLine | emptyLine | lineBreak | blankLine | skipLines =>
    exact congrArg List.length (margins_eq (core_apply_of_isOutput m rfl))
  | openWord =>
    have hword := congrArg Page.Settings.margins (Page.settings_openWord m.page)
    exact congrArg List.length hword
  | openTag amount =>
    have houtside := margins_output (m.onPage fun p => { p with indent := 0 })
      Page.settings_lineBreak
    exact congrArg List.length houtside
  | closeScope => exact congrArg List.length (margins_closeScope m)
  | closeMargins count t => exact List.length_drop
  | _ => rfl

/-- **The end of a program.** It is decided by counting the scopes that are open at its
beginning. -/
theorem run_eq_countScopes (m : Machine) (is : List Instr) :
    match countScopes m.page.margins.length is with
    | .error cause => (m.run is).fault = some cause
    | .ok d => (m.run is).fault = none ∧ (m.run is).machine.page.margins.length = d := by
  induction is generalizing m with
  | nil => exact ⟨rfl, rfl⟩
  | cons i is ih =>
    simp only [countScopes, run, fault?_eq_faultAt?]
    cases hfault : i.faultAt? m.page.margins.length with
    | some cause => rfl
    | none =>
      rw [← length_margins_apply]
      exact ih (m.apply i)

/-- The fault of a program on a machine is the one that counting finds, from the number of its open
margin scopes on. -/
theorem fault_run_eq_some_iff :
    (m.run is).fault = some cause ↔ countScopes m.page.margins.length is = .error cause := by
  have h := run_eq_countScopes m is
  split at h
  · rename_i c heq
    rw [heq, h]
    simp
  · rename_i d heq
    rw [heq, h.1]
    simp

/-- A program comes to its end on a machine just if counting does, from the number of its open
margin scopes on. -/
theorem fault_run_eq_none_iff :
    (m.run is).fault = none ↔ ∃ d, countScopes m.page.margins.length is = .ok d := by
  have h := run_eq_countScopes m is
  split at h
  · rename_i c heq
    rw [heq, h]
    simp
  · rename_i d heq
    rw [heq, h.1]
    simp

/-- Machines with as many open scopes end a program alike. -/
theorem fault_run_congr {n : Machine} (h : m.page.margins.length = n.page.margins.length)
    (is : List Instr) : (m.run is).fault = (n.run is).fault := by
  cases hcount : countScopes m.page.margins.length is with
  | error cause =>
    rw [fault_run_eq_some_iff.mpr hcount, fault_run_eq_some_iff.mpr (h ▸ hcount)]
  | ok d =>
    rw [fault_run_eq_none_iff.mpr ⟨d, hcount⟩, fault_run_eq_none_iff.mpr ⟨d, h ▸ hcount⟩]

end Machine

end Manpage
