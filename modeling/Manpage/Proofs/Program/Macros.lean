import Manpage.Proofs.Program.Text

/-!
# Sorts of instructions that macros bring

Text brings few sorts of instructions by itself, and the argument of a macro at once none but
warnings and the fault of a number. All others come from the calls of macros, and from what these
have left in store. So a property of steps that is about such a sort holds of all that text does.

## Main definitions

* `Manpage.IsSortOfMacros` — sorts of instructions of which text brings none.

## Main results

* `Manpage.IsSortOfMacros.holdOfText` — text brings no instruction of such a sort, and leaves none
  in store.
* `Manpage.Frame.atEnd_noneOf` — the end of the tokens.
-/

namespace Manpage

variable {P : Instr → Bool} {f g : Frame} {t : Token} {i : Instr} {out : List Instr}
  {fs : List Frame}

/-- A sort of which text by itself brings no instruction, and neither does the argument of a macro
at once. -/
def IsSortOfMacros (P : Instr → Bool) : Prop :=
  ∀ i : Instr, i.isOfText = true ∨ i.isOfArgument = true → P i = false

/-- In no instructions there is none of any sort. -/
@[simp] theorem noneOf_nil : NoneOf P [] :=
  List.forall_mem_nil _

/-- There is none of a sort in a row just if the first is not of the sort and there is none behind
it. -/
@[simp] theorem noneOf_cons : NoneOf P (i :: out) ↔ P i = false ∧ NoneOf P out :=
  List.forall_mem_cons

/-- Among instructions of text there is none of a sort that only macros bring. -/
theorem IsSortOfMacros.noneOf (hP : IsSortOfMacros P) (h : ∀ i ∈ out, i.isOfText = true) :
    NoneOf P out :=
  fun i hi => hP i (Or.inl (h i hi))

/-- The argument of a macro brings no instruction of such a sort at once. -/
theorem Purpose.settle_fst_noneOf (hP : IsSortOfMacros P) (p : Purpose) (t : Token)
    (argument : Option Text) : NoneOf P (p.settle t argument).1 :=
  fun i hi => hP i (Or.inr (isOfArgument_of_mem_settle_fst hi))

/-- What is stored shows at the end. -/
theorem Frame.atEnd_noneOf (hP : IsSortOfMacros P) (hf : f.IsFreeOf P) : NoneOf P f.atEnd := by
  cases f with
  | restOfLine | afterwards => exact hf
  | argument p caller => exact hf none
  | bareArgument p caller text | quotedArgument p caller text => exact hf (some text)
  | escapeArgument u => exact hP.noneOf fun i hi => u.isOfText_of_mem_settle hi
  | _ => exact hP.noneOf (by simp [atEnd, Instr.isOfText])

/-- The end of the tokens brings none of a sort from frames that have none in store. -/
theorem finish_noneOf (hP : IsSortOfMacros P) (hfs : ∀ f ∈ fs, f.IsFreeOf P) :
    NoneOf P (finish fs) := by
  intro i hi
  obtain ⟨f, hf, hi⟩ := List.mem_flatMap.mp hi
  exact Frame.atEnd_noneOf hP (hfs f hf) i hi

/-- A frame that goes on has in store what it had. -/
theorem Frame.GoesOn.isFreeOf (h : f.GoesOn t g) (hf : f.IsFreeOf P) : g.IsFreeOf P := by
  cases h with
  | moreTitle | opened => trivial
  | _ => exact hf

/-- **Text brings no instruction of such a sort**, and leaves none in store. -/
theorem IsSortOfMacros.holdOfText (hP : IsSortOfMacros P) :
    HoldOfText (fun i => P i = false) (Frame.IsFreeOf P) where
  instr := fun hi => hP _ (Or.inl hi)
  frame := Frame.isFreeOf_of_isOfText (hP _ (Or.inl rfl)) (hP _ (Or.inl rfl))
  goesOn := Frame.GoesOn.isFreeOf
  atEnd := Frame.atEnd_noneOf hP
  rest := fun h => (noneOf_append.mp (h.elim (· (some _)) (· (some _)))).2

end Manpage
