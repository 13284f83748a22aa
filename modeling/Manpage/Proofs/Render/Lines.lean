import Manpage.Proofs.Machine.Steady
import Manpage.Proofs.Page.Overflow
import Mathlib

/-!
# The lines of a rendered source

What is true of every line that any source is rendered as, whatever the section that is asked for
and the width.

## Main results

* `Manpage.render_eq_ok_iff`, `Manpage.render_eq_error_iff` — a source is rendered as the text of a
  page, or has a fault.
* `Manpage.length_le_or_unit_of_render` — no line is longer than the width, unless it has one unit
  only.
-/

namespace Manpage

variable {source text : Text} {requested : Option Section} {width : Int}

/-- A source is rendered as the text of the page, where it has no fault. Rendering reads nothing
else of a run. -/
theorem render_eq_ok_iff : render source requested width = .ok text ↔
    (interpretSource source requested width).fault = none ∧
      (interpretSource source requested width).machine.page.text = text := by
  simp only [render]
  split
  · rename_i cause hcause
    simp [hcause]
  · rename_i hnone
    simp [hnone]

/-- A source that has a fault is not rendered. -/
theorem render_eq_error_iff {cause : Fault} : render source requested width = .error cause ↔
    (interpretSource source requested width).fault = some cause := by
  simp only [render]
  split
  · rename_i cause' hcause
    simp [hcause]
  · rename_i hnone
    simp [hnone]

/-- **No line overflows unless it must.** For every source without the escape character, every
section and width, each line of the rendered text, its control sequences erased, is no longer than
the width, or it is one unit without blanks behind leading blanks.

**Proof sketch.** The changes of a page keep its lines so, and keep them tidy, whatever the
instructions of the source. The lines of the text are those of the page, and erasing the sequences
gives back their characters. -/
theorem length_le_or_unit_of_render (hsource : '\x1b' ∉ source)
    (h : render source requested width = .ok text) :
    ∀ line ∈ text.splitOn '\n',
      (Text.eraseControls line).length ≤ (max 1 width).toNat ∨
        ∃ blanks unit, Text.isBlank blanks = true ∧ unit ≠ [] ∧ Text.isInk unit = true ∧
          Text.eraseControls line = blanks ++ unit := by
  obtain ⟨hfault, rfl⟩ := render_eq_ok_iff.mp h
  have htidy : Page.Tidy source _ := ((Page.steady_tidy source).interpretSource
    (Page.tidy_ofWidth source width) hfault).holds
  have hfits : Page.Fits _ .outside _ := ((Page.steady_fits source _).interpretSource
    (Page.fits_ofWidth width) hfault).holds
  intro l hl
  rcases htidy.exists_of_mem_splitOn hl with rfl | ⟨line, hline, rfl⟩
  · exact Or.inl (by simp)
  · have hfit := hfits.fitsIn_of_mem_lines hline
    unfold Text.FitsIn at hfit
    rw [htidy.stripRight_lineText hline] at hfit
    rw [htidy.eraseControls_showLine hsource hline]
    rcases hfit with hlength | ⟨blanks, unit, hblanks, hunit, heq⟩
    · exact Or.inl hlength
    · by_cases hne : unit = []
      · -- nothing but blanks, which a line does not end in
        have hnil : Piece.lineText line = [] := by
          rw [← htidy.stripRight_lineText hline, Text.stripRight_eq_nil_iff, heq, hne,
            List.append_nil]
          exact hblanks
        left
        rw [hnil]
        exact Nat.zero_le _
      · exact Or.inr ⟨blanks, unit, hblanks, hne, hunit, heq⟩

/-- A word that is too long for a line has one of its own. -/
theorem length_le_or_unit_of_long_word :
    ('\x1b' ∉ "ab abcdef x\n".toList ∧
      render "ab abcdef x\n".toList none 4 = .ok "ab\nabcdef\nx".toList) ∧
    ∀ line ∈ "ab\nabcdef\nx".toList.splitOn '\n',
      (Text.eraseControls line).length ≤ (max 1 (4 : Int)).toNat ∨
        ∃ blanks unit, Text.isBlank blanks = true ∧ unit ≠ [] ∧ Text.isInk unit = true ∧
          Text.eraseControls line = blanks ++ unit := by
  have hsource : '\x1b' ∉ "ab abcdef x\n".toList := by decide
  have hrender : render "ab abcdef x\n".toList none 4 = .ok "ab\nabcdef\nx".toList := by cbv
  exact ⟨⟨hsource, hrender⟩, length_le_or_unit_of_render hsource hrender⟩

end Manpage
