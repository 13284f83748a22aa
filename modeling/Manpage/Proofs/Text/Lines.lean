import Manpage.Text.Basic
import Mathlib.Data.List.Basic

/-!
# The lines of a text

What is between two line ends is a line, and holds none.

## Main results

* `Manpage.Text.mem_splitLines` — lines hold characters of the text, and no line end.
* `Manpage.Text.splitLines_append_newline` — the first line of a text.
* `Manpage.Text.splitLines_flatMap_append` — lines that are written are read back.
-/

namespace Manpage.Text

/-- The lines of a text hold characters of the text, and none that ends a line.

**Proof sketch.** By induction over the text as it is split: each character ends the first line or
begins it, and only the latter is kept. -/
theorem mem_splitLines {t line : Text} (hline : line ∈ splitLines t) :
    ∀ c ∈ line, c ∈ t ∧ isLineEnd c = false := by
  induction t using splitLines.induct generalizing line with
  | case1 => exact absurd hline List.not_mem_nil
  | case2 t ih =>
    rw [splitLines, List.mem_cons] at hline
    rcases hline with rfl | hline
    · simp
    · intro c hc
      have h := ih hline c hc
      exact ⟨List.mem_cons_of_mem _ (List.mem_cons_of_mem _ h.1), h.2⟩
  | case3 d t hcr hend ih =>
    rw [splitLines, if_pos hend, List.mem_cons] at hline
    · rcases hline with rfl | hline
      · simp
      · intro c hc
        have h := ih hline c hc
        exact ⟨List.mem_cons_of_mem _ h.1, h.2⟩
    · exact hcr
  | case4 d t hcr hend hnil ih =>
    rw [splitLines, if_neg hend, hnil] at hline
    · obtain rfl := List.mem_singleton.mp hline
      simpa using hend
    · exact hcr
  | case5 d t hcr hend first more hcons ih =>
    rw [splitLines, if_neg hend, hcons] at hline
    · -- the character is put in front of the first line; the others are as they were
      rw [hcons] at ih
      intro c hc
      rcases List.mem_cons.mp hline with rfl | hmore
      · rcases List.mem_cons.mp hc with rfl | hc
        · exact ⟨List.mem_cons_self, by simpa using hend⟩
        · have h := ih List.mem_cons_self c hc
          exact ⟨List.mem_cons_of_mem _ h.1, h.2⟩
      · have h := ih (List.mem_cons_of_mem _ hmore) c hc
        exact ⟨List.mem_cons_of_mem _ h.1, h.2⟩
    · exact hcr

/-- A line feed ends the line that stands before it. The line stands for itself, and what follows is
split as if it were a text of its own. -/
theorem splitLines_append_newline {line : Text} (h : ∀ c ∈ line, isLineEnd c = false)
    (rest : Text) : splitLines (line ++ '\n' :: rest) = line :: splitLines rest := by
  induction line with
  | nil =>
    have hend : isLineEnd '\n' = true := by decide
    rw [List.nil_append, splitLines, if_pos hend]
    simp
  | cons c line ih =>
    have hc : isLineEnd c = false := h c List.mem_cons_self
    have hcr : ∀ t, c = '\r' → line ++ '\n' :: rest = '\n' :: t → False := by
      rintro t rfl -
      exact absurd hc (by decide)
    rw [List.cons_append, splitLines, if_neg (by simp [hc]),
      ih fun d hd => h d (List.mem_cons_of_mem c hd)]
    exact hcr

/-- Lines that are written with a line feed at the end of each are read back. By induction on the
lines, each of which is ended by its line feed. -/
theorem splitLines_flatMap_append {lines : List Text}
    (h : ∀ line ∈ lines, ∀ c ∈ line, isLineEnd c = false) (rest : Text) :
    splitLines ((lines.flatMap fun l => l ++ ['\n']) ++ rest) = lines ++ splitLines rest := by
  induction lines with
  | nil => rfl
  | cons line lines ih =>
    have hcons : ((line :: lines).flatMap fun l => l ++ ['\n']) ++ rest =
        line ++ '\n' :: ((lines.flatMap fun l => l ++ ['\n']) ++ rest) := by
      simp
    rw [hcons, splitLines_append_newline (h line List.mem_cons_self),
      ih fun l hl => h l (List.mem_cons_of_mem line hl)]
    rfl

end Manpage.Text
