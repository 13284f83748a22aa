import Manpage.Machine.Basic
import Manpage.Proofs.Page.Plain

/-!
# Programs that change no style, and programs without a fault

Where no instruction can fail, a program is carried out to its end, and two programs one after the
other are carried out in turn. Where no instruction sets a font, nothing on the page has a face.

## Main definitions

* `Manpage.Instr.isSafe`, `Manpage.Instr.setsFont` — instructions that cannot fail, and those that
  set a font.
* `Manpage.Machine.exec` — instructions carried out whatever they may fail with.
* `Manpage.Machine.IsPlain` — a machine with a plain page.

## Main results

* `Manpage.Machine.run_append` — a first part of a program that cannot fail.
* `Manpage.Machine.IsPlain.exec` — the page stays plain.
-/

namespace Manpage

/-- An instruction that cannot fail. -/
def Instr.isSafe : Instr → Bool
  | .closeMargins _ _ | .fault _ => false
  | _ => true

/-- An instruction that sets a font. -/
def Instr.setsFont : Instr → Bool
  | .setStyle _ _ | .openStyle _ => true
  | _ => false

namespace Machine

variable {m m' : Machine} {i : Instr} {is js : List Instr} {outer : List Scope}

/-! ## Programs without a fault -/

/-- Instructions carried out one after another. -/
def exec (m : Machine) (is : List Instr) : Machine :=
  is.foldl apply m

/-- Without instructions a machine stays as it is. -/
@[simp] theorem exec_nil (m : Machine) : m.exec [] = m := rfl

/-- Instructions are carried out one after another. -/
@[simp] theorem exec_cons (m : Machine) (i : Instr) (is : List Instr) :
    m.exec (i :: is) = (m.apply i).exec is := rfl

/-- Two programs one after the other are carried out in turn. -/
theorem exec_append (m : Machine) (is js : List Instr) :
    m.exec (is ++ js) = (m.exec is).exec js :=
  List.foldl_append

/-- An instruction that is safe has no fault. -/
theorem fault?_of_isSafe (h : i.isSafe = true) : m.fault? i = none := by
  cases i with
  | closeMargins | fault => exact Bool.noConfusion h
  | _ => rfl

/-- A first part of a program that cannot fail is carried out. -/
theorem run_append (h : ∀ i ∈ is, i.isSafe = true) (js : List Instr) :
    m.run (is ++ js) = (m.exec is).run js := by
  induction is generalizing m with
  | nil => rfl
  | cons i is ih =>
    rw [List.cons_append, run, fault?_of_isSafe (h i List.mem_cons_self), exec_cons]
    exact ih fun j hj => h j (List.mem_cons_of_mem i hj)

/-- A program of safe instructions is carried out to its end. -/
theorem run_eq (h : ∀ i ∈ is, i.isSafe = true) : m.run is = ⟨m.exec is, none⟩ := by
  have hrun := run_append (m := m) h []
  rwa [List.append_nil] at hrun

/-- A program that is carried out without a fault is carried out to its end. By induction on the
program, since a fault of any instruction would be its own. -/
theorem run_eq_exec_of_fault_eq_none (h : (m.run is).fault = none) :
    m.run is = ⟨m.exec is, none⟩ := by
  induction is generalizing m with
  | nil => rfl
  | cons i is ih =>
    simp only [run] at h ⊢
    split at h
    · exact absurd h (by simp)
    · exact ih h

/-- Instructions that are carried out without a fault, and others after them. By induction on the
first ones: no fault keeps the others from being carried out. -/
theorem run_append_of_run_eq (h : m.run is = ⟨m', none⟩) (js : List Instr) :
    m.run (is ++ js) = m'.run js := by
  induction is generalizing m with
  | nil =>
    obtain rfl : m = m' := congrArg Outcome.machine h
    rfl
  | cons i is ih =>
    simp only [List.cons_append, run] at h ⊢
    split at h
    · exact absurd (congrArg Outcome.fault h) (by simp)
    · exact ih h

/-- Instructions that a fault has stopped, and others after them. By induction on the first ones:
the others are not reached. -/
theorem run_append_of_isSome_fault (h : (m.run is).fault.isSome = true) (js : List Instr) :
    m.run (is ++ js) = m.run is := by
  induction is generalizing m with
  | nil => exact Bool.noConfusion h
  | cons i is ih =>
    simp only [List.cons_append, run] at h ⊢
    split at h
    · rfl
    · exact ih h

/-- The beginning of a run without a fault has none. -/
theorem fault_run_eq_none_of_append {js : List Instr} (h : (m.run (is ++ js)).fault = none) :
    (m.run is).fault = none := by
  by_contra hne
  rw [run_append_of_isSome_fault (Option.isSome_iff_ne_none.mpr hne)] at h
  exact hne h

/-! ## Output and ends of scopes -/

/-- Visible output changes the page. -/
theorem output_of_isVisible (h : m.isVisible = true) (f : Page → Page) :
    m.output f = m.onPage f :=
  if_pos h

/-- A blank where lines are filled. -/
theorem apply_blank_of_fill (hvisible : m.isVisible = true) (hfill : m.page.noFill = false)
    (u : Text) : m.apply (.blank u) = m.onPage Page.appendSpace := by
  simp only [apply, hfill]
  exact output_of_isVisible hvisible Page.appendSpace

/-- The end of a word closes the block of the word on the page. -/
theorem apply_closeScope_of_word (h : m.scopes = .word :: outer) :
    m.apply .closeScope = { m with scopes := outer, page := m.page.closeWord } := by
  simp only [apply, Machine.closeScope, h]

/-- The end of a style brings back the style that was saved. -/
theorem apply_closeScope_of_style {saved : Style} (h : m.scopes = .style saved :: outer) :
    m.apply .closeScope =
      { m with scopes := outer, page := { m.page with style := saved } } := by
  simp only [apply, Machine.closeScope, h]

/-- The end of a tag sets the indent of its paragraph and ends the line. -/
theorem apply_closeScope_of_tag {amount : Int} (h : m.scopes = .tag amount :: outer) :
    m.apply .closeScope =
      ({ m with scopes := outer, page := indentBy amount m.page } : Machine).output
        Page.lineBreak := by
  simp only [apply, Machine.closeScope, h]

/-! ## Plain pages -/

/-- A machine with a plain page and without a style to return to. -/
structure IsPlain (m : Machine) : Prop where
  page : m.page.IsPlain
  scopes : ∀ saved, Scope.style saved ∉ m.scopes

namespace IsPlain

/-- Output on a plain page, visible or not. -/
theorem output {f : Page → Page} (h : m.IsPlain) (hf : m.page.IsPlain → (f m.page).IsPlain) :
    (m.output f).IsPlain := by
  unfold Machine.output
  split
  · exact ⟨hf h.page, h.scopes⟩
  · exact h

/-- A machine stays plain when its page does. -/
theorem onPage {f : Page → Page} (h : m.IsPlain) (hf : m.page.IsPlain → (f m.page).IsPlain) :
    (m.onPage f).IsPlain :=
  ⟨hf h.page, h.scopes⟩

/-- A machine stays plain in a new scope that saves no style. -/
theorem enter {s : Scope} (h : m.IsPlain) (hs : ∀ saved, s ≠ .style saved) :
    (m.enter s).IsPlain := by
  refine ⟨h.page, ?_⟩
  intro saved hmem
  rcases List.mem_cons.mp hmem with heq | hmem
  · exact hs saved heq.symm
  · exact h.scopes saved hmem

/-- A machine stays plain at the end of a scope: no style is saved that could come back. -/
theorem closeScope (h : m.IsPlain) : m.closeScope.IsPlain := by
  obtain ⟨hpage, hscopes⟩ := h
  unfold Machine.closeScope
  split
  · exact ⟨hpage, hscopes⟩
  · rename_i outer heq
    rw [heq] at hscopes
    exact ⟨hpage.closeWord, fun saved hmem => hscopes saved (List.mem_cons_of_mem _ hmem)⟩
  · rename_i saved outer heq
    rw [heq] at hscopes
    exact absurd List.mem_cons_self (hscopes saved)
  · rename_i amount outer heq
    rw [heq] at hscopes
    have hindent : IsPlain { m with scopes := outer, page := indentBy amount m.page } :=
      ⟨hpage.of_pieces rfl fun x hx => Or.inr hx,
        fun saved hmem => hscopes saved (List.mem_cons_of_mem _ hmem)⟩
    exact hindent.output Page.IsPlain.lineBreak

/-- One instruction that sets no font leaves a machine plain.

**Proof sketch.** By cases on the instruction. Output puts pieces without a face on a page in the
plain style, and what changes settings does not change the style, or makes it plain. -/
theorem apply (h : m.IsPlain) (hi : i.setsFont = false) : (m.apply i).IsPlain := by
  have hsettings : ∀ {q : Page}, q.style = m.page.style → q.pieces = m.page.pieces →
      m.page.IsPlain → q.IsPlain := by
    intro q hstyle hpieces hpage
    exact hpage.of_pieces hstyle fun x hx => Or.inr (by rwa [hpieces] at hx)
  cases i with
  | consume | note | warn | enterSection | fault => exact ⟨h.page, h.scopes⟩
  | setStyle | openStyle => exact Bool.noConfusion hi
  | openWord => exact (h.onPage Page.IsPlain.openWord).enter (by simp)
  | emit text => exact h.output fun hp => hp.append text
  | space => exact h.output Page.IsPlain.appendSpace
  | blank text =>
    refine h.output fun hp => ?_
    split
    · exact hp.append text
    · exact hp.appendSpace
  | beginLine =>
    simp only [Machine.apply]
    split
    · exact h.output Page.IsPlain.lineBreak
    · exact h
  | endLine =>
    simp only [Machine.apply]
    split
    · exact h
    · exact h.output Page.IsPlain.appendSpace
  | emptyLine =>
    refine h.output fun hp => ?_
    split
    · exact hp.breakLine
    · exact hp.blankLine
  | lineBreak => exact h.output Page.IsPlain.lineBreak
  | blankLine => exact h.output Page.IsPlain.blankLine
  | skipLines count =>
    refine h.output fun hp => ?_
    unfold Machine.skipLines
    split
    · exact hp
    · exact hp.breakLines (count + 1)
  | openTag amount =>
    have hindent : (m.onPage fun p => { p with indent := 0 }).IsPlain :=
      h.onPage (hsettings rfl rfl)
    exact (hindent.output Page.IsPlain.lineBreak).enter (by simp)
  | closeScope => exact h.closeScope
  | plainStyle => exact ⟨⟨rfl, h.page.face_eq⟩, h.scopes⟩
  | setNoFill | setIndent | paragraphIndent | forgetIndent | openMargin | closeMargins
  | clearMargins | sectionMargin => exact ⟨hsettings rfl rfl h.page, h.scopes⟩

/-- Instructions that set no font leave a plain page. -/
theorem exec (h : m.IsPlain) (his : ∀ i ∈ is, i.setsFont = false) : (m.exec is).IsPlain := by
  induction is generalizing m with
  | nil => exact h
  | cons i is ih =>
    exact ih (h.apply (his i List.mem_cons_self)) fun j hj => his j (List.mem_cons_of_mem i hj)

end IsPlain

end Machine

end Manpage
