import Manpage.Proofs.Machine.Steady
import Manpage.Proofs.Page.Spaced
import Manpage.Proofs.Program.Skips

/-!
# Even spacing while a source is interpreted

Where lines are filled all the time, every instruction leaves an evenly spaced page. A text that is
shown is ink. Spaces and line ends are asked for again and again, and the page itself sees to it
that they do not add up.

## Main definitions

* `Manpage.Instr.IsEven` — an instruction that keeps a page evenly spaced.
* `Manpage.IsSkipCount` — a number of empty lines that a macro asks for.

## Main results

* `Manpage.Machine.spaced_apply`, `Manpage.Machine.spaced_exec` — one instruction, and a program.
* `Manpage.spaced_interpretSource` — a source that is interpreted to its end.
-/

namespace Manpage

variable {S : Nat → Prop} {m : Machine} {i : Instr} {is : List Instr}

/-! ## Instructions -/

/-- An instruction that shows ink or no text, has lines filled, and asks for so many empty lines as
a set allows. -/
def Instr.IsEven (S : Nat → Prop) : Instr → Prop
  | .emit text => text.isInk = true ∧ text ≠ []
  | .skipLines count => count = 1 ∨ S count
  | .setNoFill value => value = false
  | _ => True

/-- Empty lines leave a page spaced if there is one of them, or a number that is asked for. -/
theorem Page.Spaced.skipLines {p : Page} {n : Nat} (h : p.Spaced S) (hn : n = 1 ∨ S n) :
    (Machine.skipLines n p).Spaced S := by
  unfold Machine.skipLines
  split
  · exact h
  · rename_i hb
    exact h.breakLines (Bool.not_eq_true _ ▸ hb) hn

namespace Machine

/-- Output, visible or not. -/
theorem spaced_output {f : Page → Page} (h : m.page.Spaced S) (hf : (f m.page).Spaced S) :
    (m.output f).page.Spaced S := by
  unfold Machine.output
  split
  · exact hf
  · exact h

/-- A change of style, indent or margins. -/
theorem spaced_onPage {f : Page → Page} (h : m.page.Spaced S) (hf : m.page.SameLines (f m.page))
    (hfill : (f m.page).noFill = m.page.noFill) : (m.onPage f).page.Spaced S :=
  h.sameLines hf (hfill.trans h.noFill_eq)

/-- The end of a scope leaves a page spaced. A word is completed, a style put back, or a line ended
behind a tag. -/
theorem spaced_closeScope (h : m.page.Spaced S) : m.closeScope.page.Spaced S := by
  unfold Machine.closeScope
  split
  · exact h
  · exact h.closeWord
  · exact Page.Spaced.sameLines (p := m.page) ⟨rfl, rfl, rfl, rfl, rfl⟩ h.noFill_eq h
  · rename_i amount outer _
    have hindent : (indentBy amount m.page).Spaced S :=
      Page.Spaced.sameLines (p := m.page) ⟨rfl, rfl, rfl, rfl, rfl⟩ h.noFill_eq h
    exact spaced_output (m := { m with scopes := outer, page := indentBy amount m.page }) hindent
      hindent.lineBreak

/-- **One instruction** leaves a page spaced, if its texts are of ink and the empty lines that it
asks for are as many as are allowed.

**Proof sketch.** By cases on the instruction. Where lines are filled, all blanks come onto the page
as single spaces behind ink. -/
theorem spaced_apply (hi : i.IsEven S) (h : m.page.Spaced S) : (m.apply i).page.Spaced S := by
  cases i with
  | consume | note | warn | enterSection | fault => exact h
  | emit text => exact spaced_output h (h.append hi.1 hi.2)
  | space => exact spaced_output h h.appendSpace
  | blank text =>
    refine spaced_output h ?_
    rw [if_neg (by simp [h.noFill_eq])]
    exact h.appendSpace
  | beginLine =>
    simp only [Machine.apply, h.noFill_eq, Bool.false_eq_true, if_false]
    exact h
  | endLine =>
    simp only [Machine.apply, h.noFill_eq, Bool.false_eq_true, if_false]
    exact spaced_output h h.appendSpace
  | emptyLine =>
    refine spaced_output h ?_
    rw [if_neg (by simp [h.noFill_eq])]
    exact h.blankLine
  | lineBreak => exact spaced_output h h.lineBreak
  | blankLine => exact spaced_output h h.blankLine
  | skipLines count => exact spaced_output h (h.skipLines hi)
  | openWord => exact h.openWord
  | openStyle font =>
    exact spaced_onPage (f := (·.setStyle font true)) h ⟨rfl, rfl, rfl, rfl, rfl⟩ rfl
  | openTag amount =>
    have hindent : (m.onPage fun p => { p with indent := 0 }).page.Spaced S :=
      spaced_onPage h ⟨rfl, rfl, rfl, rfl, rfl⟩ rfl
    exact spaced_output hindent hindent.lineBreak
  | closeScope => exact spaced_closeScope h
  | setNoFill value =>
    exact Page.Spaced.sameLines (p := m.page) ⟨rfl, rfl, rfl, rfl, rfl⟩ hi h
  | setStyle | plainStyle | setIndent | paragraphIndent | forgetIndent | openMargin | closeMargins
  | clearMargins | sectionMargin =>
    exact spaced_onPage h ⟨rfl, rfl, rfl, rfl, rfl⟩ rfl

/-- **A program.** -/
theorem spaced_exec (his : ∀ i ∈ is, i.IsEven S) (h : m.page.Spaced S) :
    (m.exec is).page.Spaced S := by
  induction is generalizing m with
  | nil => exact h
  | cons i is ih =>
    obtain ⟨hi, his⟩ := List.forall_mem_cons.mp his
    exact ih his (spaced_apply hi h)

end Machine

/-! ## Sources -/

/-- A number of empty lines that the program of the tokens asks for, as a macro among them says. -/
def IsSkipCount (isolating : Bool) (ts : List Token) (n : Nat) : Prop :=
  .skipLines n ∈ program isolating ts ∧
    ∃ before t after, ts = before ++ t :: after ∧ t.called? = some .skip ∧ n = skipCount after

variable {source : Text} {isolating : Bool}

/-- The program of a source that has no lines kept as they are is even: its texts are of ink, and
each request for several empty lines comes from a macro. -/
theorem isEven_of_mem_program
    (hfill : ∀ t ∈ Token.ofSource source, t.called? ≠ some .noFill)
    (hi : i ∈ program isolating (Token.ofSource source)) :
    i.IsEven (IsSkipCount isolating (Token.ofSource source)) := by
  have hrequested : i.isRequested = true →
      ∃ n, IsSkipCount isolating (Token.ofSource source) n ∧ i = .skipLines n := by
    intro hreq
    obtain ⟨before, t, after, hts, ⟨hskip, rfl⟩ | ⟨hno, -⟩⟩ := isRequestedBy_of_mem_program hi hreq
    · exact ⟨_, ⟨hi, before, t, after, hts, hskip, rfl⟩, rfl⟩
    · exact absurd hno (hfill t (hts ▸ by simp))
  cases i with
  | emit text =>
    have hink := IsShown.isInkOf ((program_carries isolating source).sound _ hi)
    exact ⟨hink.isInk, hink.ne_nil⟩
  | skipLines count =>
    obtain ⟨n, hn, heq⟩ := hrequested rfl
    obtain rfl := Instr.skipLines.inj heq
    exact Or.inr hn
  | setNoFill value =>
    cases value with
    | false => exact rfl
    | true =>
      obtain ⟨n, -, heq⟩ := hrequested rfl
      exact Instr.noConfusion heq
  | _ => trivial

/-- **Sources.** The page of a source that is interpreted to its end, with lines filled all the
time, is evenly spaced. -/
theorem spaced_interpretSource {requested : Option Section} {width : Int}
    (hfill : ∀ t ∈ Token.ofSource source, t.called? ≠ some .noFill)
    (hfault : (interpretSource source requested width).fault = none) :
    (interpretSource source requested width).machine.page.Spaced
      (IsSkipCount requested.isSome (Token.ofSource source)) := by
  have hrun : (interpretSource source requested width).machine =
      Machine.exec { Machine.fresh (Page.ofWidth width) requested with consumed := true }
        (program requested.isSome (Token.ofSource source)) :=
    congrArg Outcome.machine (Machine.run_eq_exec_of_fault_eq_none hfault)
  rw [hrun]
  exact Machine.spaced_exec (fun _ hi => isEven_of_mem_program hfill hi)
    (Page.Spaced.ofWidth _ width)

end Manpage
