import Manpage.Proofs.Machine.Depth
import Manpage.Proofs.Machine.Plain

/-!
# Margins above others

A program that opens margin scopes, and closes no more than it has opened, leaves the margins below
them as they are. The number of scopes that it has open tells how many margins are above those that
were there. What shows that no margin below is touched is the count from nothing: counted from there
the program does not fail.

## Main definitions

* `Manpage.Instr.resetsMargins` — an instruction that closes all margin scopes, or sets their
  number.

## Main results

* `Manpage.Machine.exists_margins_exec` — the margins after a program, above those below.
* `Manpage.exists_countScopes_eq_ok` — a program that fails on no number of scopes fails on a
  smaller one only by closing too many.
-/

namespace Manpage

variable {i : Instr} {is js : List Instr} {d e k : Nat} {m : Machine} {base pushed : List Int}

/-- An instruction that closes all margin scopes or opens one in place of them. -/
def Instr.resetsMargins : Instr → Bool
  | .clearMargins | .sectionMargin => true
  | _ => false

/-! ## Counting from fewer scopes -/

/-- **A program that fails on no number of scopes fails on a smaller one only by closing too many.**

**Proof sketch.** By induction on the program, with the two numbers at a fixed distance. An
instruction that fails on the smaller number only is one that closes too many, as other faults do
not ask for the number. -/
theorem exists_countScopes_eq_ok (hreset : ∀ i ∈ is, i.resetsMargins = false)
    (h : countScopes (d + k) is = .ok e)
    (hunder : ∀ t, countScopes d is ≠ .error (.marginUnderflow t)) :
    ∃ c, countScopes d is = .ok c := by
  induction is generalizing d with
  | nil => exact ⟨d, rfl⟩
  | cons i is ih =>
    obtain ⟨hi, his⟩ := List.forall_mem_cons.mp hreset
    have hfault : i.faultAt? (d + k) = none := by
      cases hf : i.faultAt? (d + k) with
      | none => rfl
      | some cause =>
        rw [countScopes, hf] at h
        exact absurd h (by simp)
    have hless : i.faultAt? d = none := by
      cases i with
      | closeMargins count t =>
        by_cases hlt : d < count
        · exact absurd (by simp [countScopes, Instr.faultAt?, hlt]) (hunder t)
        · simp [Instr.faultAt?, hlt]
      | fault cause => exact absurd hfault (by simp [Instr.faultAt?])
      | _ => rfl
    have hafter : i.scopesAfter (d + k) = i.scopesAfter d + k := by
      cases i with
      | openMargin amount => exact Nat.add_right_comm d k 1
      | closeMargins count t =>
        simp only [Instr.faultAt?, ite_eq_right_iff, reduceCtorEq, imp_false] at hless
        simp only [Instr.scopesAfter]
        omega
      | clearMargins | sectionMargin => exact Bool.noConfusion hi
      | _ => rfl
    simp only [countScopes, hfault, hafter] at h
    simp only [countScopes, hless] at hunder ⊢
    exact ih his h hunder

/-! ## Margins -/

namespace Machine

/-- Instructions that neither open nor close margin scopes leave the margins alone. Output leaves
all settings alone, and scopes of text put back the style and the indent only. -/
theorem margins_apply_of_not_isMargin (m : Machine) (hi : i.isMargin = false) :
    (m.apply i).page.margins = m.page.margins := by
  cases i with
  | emit | space | blank | beginLine | endLine | emptyLine | lineBreak | blankLine | skipLines =>
    exact margins_eq (core_apply_of_isOutput m rfl)
  | openWord => exact congrArg Page.Settings.margins (Page.settings_openWord m.page)
  | openTag amount =>
    exact margins_output (m.onPage fun p => { p with indent := 0 }) Page.settings_lineBreak
  | closeScope => exact margins_closeScope m
  | openMargin | closeMargins | clearMargins | sectionMargin => exact Bool.noConfusion hi
  | _ => rfl

/-- One instruction that closes no more scopes than are open above some margins. What it opens and
closes is above those margins. -/
theorem exists_margins_apply (hmargins : m.page.margins = pushed ++ base)
    (hi : i.resetsMargins = false) (hfault : i.faultAt? pushed.length = none) :
    ∃ more, (m.apply i).page.margins = more ++ base ∧
      more.length = i.scopesAfter pushed.length := by
  cases i with
  | openMargin amount => exact ⟨_ :: pushed, congrArg (_ :: ·) hmargins, rfl⟩
  | closeMargins count t =>
    simp only [Instr.faultAt?, ite_eq_right_iff, reduceCtorEq, imp_false, not_lt] at hfault
    refine ⟨pushed.drop count, ?_, List.length_drop⟩
    rw [← List.drop_append_of_le_length hfault, ← hmargins]
    rfl
  | clearMargins | sectionMargin => exact Bool.noConfusion hi
  | _ => exact ⟨pushed, (margins_apply_of_not_isMargin m rfl).trans hmargins, rfl⟩

/-- **The margins after a program** that closes no more scopes than are open above some margins:
these are still there, and above them as many as are open. -/
theorem exists_margins_exec (hmargins : m.page.margins = pushed ++ base)
    (hreset : ∀ i ∈ is, i.resetsMargins = false) (h : countScopes pushed.length is = .ok e) :
    ∃ more, (m.exec is).page.margins = more ++ base ∧ more.length = e := by
  induction is generalizing m pushed with
  | nil => exact ⟨pushed, hmargins, Except.ok.inj h⟩
  | cons i is ih =>
    obtain ⟨hi, his⟩ := List.forall_mem_cons.mp hreset
    simp only [countScopes] at h
    split at h
    · exact absurd h (by simp)
    · rename_i hfault
      obtain ⟨more, hmore, hlength⟩ := exists_margins_apply hmargins hi hfault
      exact ih hmore his (by rwa [hlength])

/-- A first part of a program that fails on no number of scopes. -/
theorem exists_margins_exec_of_isPrefix (hmargins : m.page.margins = pushed ++ base)
    (hreset : ∀ i ∈ is, i.resetsMargins = false) (h : countScopes pushed.length is = .ok e)
    (hjs : js <+: is) : ∃ more, (m.exec js).page.margins = more ++ base := by
  obtain ⟨rest, rfl⟩ := hjs
  obtain ⟨c, hc, -⟩ := countScopes_append_eq_ok_iff.mp h
  obtain ⟨more, hmore, -⟩ := exists_margins_exec hmargins
    (fun i hi => hreset i (List.mem_append_left _ hi)) hc
  exact ⟨more, hmore⟩

end Machine

end Manpage
