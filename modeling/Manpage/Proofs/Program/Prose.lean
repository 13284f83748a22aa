import Manpage.Proofs.Program.Row

/-!
# Lines of prose

A line of prose consists of blanks and of words between them. Its program shows the words one after
another, each as what its chunk is read as. Where lines are filled, one blank is as good as another,
so no more is said of the blanks than where they are.

## Main definitions

* `Manpage.IsProse` — the chunks of a line of prose, with the words that they are read as.

## Main results

* `Manpage.IsProse.program_eq` — the program of a line of prose.
-/

namespace Manpage

variable {isolating : Bool} {m : Text} {ms ws : List Text} {ps : List Part} {is : List Instr}

/-- The chunks of a line of prose, with the words that they are read as. -/
inductive IsProse : List Text → List Text → Prop where
  | nil : IsProse [] []
  | blank {b : Text} {ws ms : List Text} : b ≠ [] → b.isBlank = true → IsProse ws ms →
      IsProse ws (b :: ms)
  | word {u v : Text} {ws ms : List Text} : u ≠ [] → u.isInk = true → Reads u v →
      (∀ m ∈ ms.head?, Text.isInk m = false) → IsProse ws ms → IsProse (v :: ws) (u :: ms)

/-- The words of a row. -/
def Part.words : List Part → List Text
  | [] => []
  | .blank _ :: ps => words ps
  | .word v :: ps => v :: words ps

/-- A line of prose is a row with the same words. By induction on its chunks, blank ones and those
of words in turn. -/
theorem IsProse.exists_readsRow (h : IsProse ws ms) :
    ∃ ps, ReadsRow ms ps ∧ Part.words ps = ws := by
  induction h with
  | nil => exact ⟨[], .nil, rfl⟩
  | blank hne hb _ ih =>
    obtain ⟨ps, hrow, hwords⟩ := ih
    exact ⟨_, .blank hne hb hrow, hwords⟩
  | word hne hu hreads hms _ ih =>
    obtain ⟨ps, hrow, rfl⟩ := ih
    exact ⟨_, .word hne hu hreads hms hrow, rfl⟩

/-- The instructions for a row are those for its words, since a blank follows each of them but the
last.

**Proof sketch.** By induction on the row. A word is the last or has a blank behind it, as two
chunks of ink never stand side by side. -/
theorem ReadsRow.isText (h : ReadsRow ms ps) (his : IsRow ps is) : IsText (Part.words ps) is := by
  induction h generalizing is with
  | nil =>
    cases his
    exact .done
  | blank _ _ _ ih =>
    cases his with
    | blank t _ hrest => exact .blank t _ (ih hrest)
  | word _ _ _ hms hrow ih =>
    cases his with
    | word hword hrest =>
      have htext := ih hrest
      cases hrow with
      | nil =>
        cases hrest
        exact .last hword
      | word _ hu => exact absurd hu (by simp [hms _ rfl])
      | blank _ _ _ =>
        cases hrest with
        | blank t _ _ =>
          rw [Part.words, Part.words]
          rw [Part.words] at htext
          generalize Part.words _ = ws at htext ⊢
          cases htext with
          | blank _ _ htext => exact .word t _ hword htext

/-- **A line of prose.** Its program begins the line, and has the instructions for its words. The
line is read as a row, and the instructions of a row are those of its words. -/
theorem IsProse.program_eq (h : IsProse ws (m :: ms)) (hpoint : m.head? ≠ some '.')
    (number column : Int) (offset : Nat) :
    (∃ is, program isolating
        (Token.ofChunk m true number column ++ Token.ofChunks number offset ms) =
          .beginLine :: is ∧ IsText ws is) ∧
      ∀ f ∈ (feedAll isolating []
        (Token.ofChunk m true number column ++ Token.ofChunks number offset ms)).frames,
          f.EndsAtLine := by
  obtain ⟨ps, hrow, rfl⟩ := h.exists_readsRow
  obtain ⟨⟨is, hprogram, his⟩, hends⟩ := hrow.program_eq hpoint number column offset
  exact ⟨⟨is, hprogram, hrow.isText his⟩, hends⟩

end Manpage
