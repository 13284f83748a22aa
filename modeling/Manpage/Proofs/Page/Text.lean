import Manpage.Proofs.Page.View
import Manpage.Proofs.Text.Shown

/-!
# The text of a page, line by line

The text of a page is what stands on it without the blanks at its end. Every finished line has lost
its blanks at the end already, so what is cut off is the end of the current line, and then the empty
lines before it, if nothing is left of that.

## Main definitions

* `Manpage.Page.lines` — the lines of a page, without the blanks at their ends.
* `Manpage.Page.Trimmed` — no blanks end a finished line.

## Main results

* `Manpage.Page.text_eq` — the text of a page is its lines, without the empty ones at the end.
-/

namespace Manpage

namespace Text

/-! ## Lines that are joined -/

/-- The last of texts that are joined has no separator behind it, and each of the others has one. By
induction on the others. -/
theorem join_append_singleton {separator : Text} (ls : List Text) (last : Text) :
    join separator (ls ++ [last]) = (ls.flatMap fun l => l ++ separator) ++ last := by
  induction ls with
  | nil => simp [join]
  | cons l ls ih =>
    have hne : ls ++ [last] ≠ [] := by simp
    rw [List.cons_append, List.flatMap_cons, List.append_assoc, ← ih]
    obtain ⟨a, as, has⟩ := List.exists_cons_of_ne_nil hne
    rw [has]
    simp [join, List.intercalate]

/-- Lines with a line feed behind each have as many characters more as there are lines. -/
theorem length_flatMap_newline (ls : List Text) :
    (ls.flatMap fun l => l ++ ['\n']).length = ls.flatten.length + ls.length := by
  induction ls with
  | nil => rfl
  | cons l ls ih =>
    simp only [List.flatMap_cons, List.length_append, ih, List.flatten_cons, List.length_cons,
      List.length_nil]
    omega

/-- Lines that are joined are as long as they are, with a line feed between any two. -/
theorem length_join {ls : List Text} (hne : ls ≠ []) :
    (join ['\n'] ls).length + 1 = ls.flatten.length + ls.length := by
  rcases List.eq_nil_or_concat ls with rfl | ⟨front, last, rfl⟩
  · exact absurd rfl hne
  · rw [List.concat_eq_append, join_append_singleton, List.length_append,
      length_flatMap_newline, List.flatten_append, List.flatten_singleton, List.length_append,
      List.length_append, List.length_singleton]
    omega

/-- Blanks at the end of lines that end in no blanks are those of the last line, and the ends of
the empty lines before it if the last line is blank.

**Proof sketch.** Induction on the lines before the last. If the last line is blank, it is cut off
with the line end before it, and the line before it is the last. -/
theorem stripRight_lines (ls : List Text) (last : Text) (h : ∀ l ∈ ls, l.stripRight = l) :
    stripRight ((ls.flatMap fun l => l ++ ['\n']) ++ last) =
      join ['\n'] ((ls ++ [last.stripRight]).rdropWhile List.isEmpty) := by
  induction ls using List.reverseRecOn generalizing last with
  | nil =>
    rw [List.flatMap_nil, List.nil_append, List.nil_append]
    rcases hlast : last.stripRight with _ | ⟨c, t⟩
    · rfl
    · simp [List.rdropWhile, join]
  | append_singleton ls l ih =>
    have hl : l.stripRight = l := h l (by simp)
    have hls : ∀ a ∈ ls, a.stripRight = a := fun a ha => h a (by simp [ha])
    by_cases hblank : last.isBlank = true
    · have hend : isBlank (['\n'] ++ last) = true := by
        rw [isBlank_append, hblank]
        rfl
      rw [stripRight_eq_nil_iff.mpr hblank, List.rdropWhile_concat_pos _ _ _ rfl,
        List.flatMap_append, List.flatMap_singleton]
      have hcut := stripRight_append_of_isBlank ((ls.flatMap fun l => l ++ ['\n']) ++ l) hend
      simp only [List.append_assoc] at hcut ⊢
      rw [hcut, ih l hls, hl]
    · have hne : last.stripRight ≠ [] := fun hnil => hblank (stripRight_eq_nil_iff.mp hnil)
      rw [List.rdropWhile_concat_neg _ _ _ (by simpa using hne), join_append_singleton]
      exact stripRight_append_of_not_isBlank _ hblank

/-- Lines without a line feed are got back from their join. -/
theorem splitOn_join {ls : List Text} (hne : ls ≠ []) (h : ∀ l ∈ ls, '\n' ∉ l) :
    (join ['\n'] ls).splitOn '\n' = ls :=
  List.splitOn_intercalate '\n' h hne

end Text

/-! ## Lines of pieces -/

namespace Piece

variable {x : Piece} {pieces : List Piece}

/-- No pieces show nothing. -/
@[simp] theorem showLine_nil : showLine [] = [] := rfl

/-- The latest piece of a line is shown at its end. -/
@[simp] theorem showLine_cons (x : Piece) (xs : List Piece) :
    showLine (x :: xs) = showLine xs ++ x.shown := by
  simp [showLine]

/-- Two rows of pieces, the latest first, show what the earlier row shows and then what the later
one does. -/
theorem showLine_append (xs ys : List Piece) :
    showLine (xs ++ ys) = showLine ys ++ showLine xs := by
  simp [showLine]

/-- What a piece of ink is shown as ends in no blank. -/
theorem stripRight_append_shown (h : x.IsPure) (hb : ¬ x.isBlank = true) (t : Text) :
    (t ++ x.shown).stripRight = t ++ x.shown :=
  Text.Shows.stripRight_append_showIn x.face (h.sort.resolve_left hb) h.ne_nil t

/-- A shown line without the blanks at its end is its pieces without the blank ones at the end. By
induction from the end of the line on: a blank piece is shown as it is and stripped, and the first
piece of ink stops both. -/
theorem stripRight_showLine (h : ∀ x ∈ pieces, x.IsPure) :
    (showLine pieces).stripRight = showLine (pieces.dropWhile isBlank) := by
  induction pieces with
  | nil => rfl
  | cons x xs ih =>
    have hx := h x List.mem_cons_self
    rw [List.dropWhile_cons, showLine_cons]
    by_cases hb : x.isBlank = true
    · have hshown : x.shown = x.text := by
        rw [shown, hx.face_eq hb]
        rfl
      rw [if_pos hb, hshown, Text.stripRight_append_of_isBlank _ hb]
      exact ih fun y hy => h y (List.mem_cons_of_mem x hy)
    · rw [if_neg hb, stripRight_append_shown hx hb, showLine_cons]

end Piece

/-! ## Pages -/

namespace Page

variable {p : Page}

/-- The lines of a page without the blank pieces at their ends, the first line first. -/
def lines (p : Page) : List (List Piece) :=
  (p.currentLine.dropWhile Piece.isBlank :: p.finished).reverse

/-- What is on a line of a page is on the page. -/
theorem mem_pieces_of_mem_lines {x : Piece} {line : List Piece} (hline : line ∈ p.lines)
    (hx : x ∈ line) : x ∈ p.pieces := by
  rw [lines, List.mem_reverse, List.mem_cons] at hline
  rcases hline with rfl | hline
  · exact List.mem_append_left _ ((List.dropWhile_sublist _).subset hx)
  · exact List.mem_append_right _ (List.mem_flatten.mpr ⟨line, hline, hx⟩)

/-- No blank pieces end a finished line. -/
def Trimmed (p : Page) : Prop :=
  ∀ line ∈ p.finished, line.dropWhile Piece.isBlank = line

/-- **The text of a page.** It consists of the lines of the page, without the empty ones at the end.

**Proof sketch.** What is shown are the lines with line feeds behind all but the last. Stripping it
takes away the empty lines at the end and the blanks of the last one; the finished lines have been
stripped already. -/
theorem text_eq (hpure : ∀ x ∈ p.pieces, x.IsPure) (htrim : p.Trimmed) :
    p.text = Text.join ['\n'] ((p.lines.map Piece.showLine).rdropWhile List.isEmpty) := by
  have hcurrent : ∀ x ∈ p.currentLine, x.IsPure :=
    fun x hx => hpure x (List.mem_append_left _ hx)
  have hfinished : ∀ l ∈ p.finished.reverse.map Piece.showLine, l.stripRight = l := by
    intro l hl
    obtain ⟨line, hline, rfl⟩ := List.mem_map.mp hl
    rw [List.mem_reverse] at hline
    have hline' : ∀ x ∈ line, x.IsPure := fun x hx =>
      hpure x (List.mem_append_right _ (List.mem_flatten.mpr ⟨line, hline, hx⟩))
    rw [Piece.stripRight_showLine hline', htrim line hline]
  have hshown : p.shown =
      ((p.finished.reverse.map Piece.showLine).flatMap fun l => l ++ ['\n']) ++
        Piece.showLine p.currentLine := by
    rw [shown, List.flatMap_map]
  rw [text, hshown, Text.stripRight_lines _ _ hfinished, Piece.stripRight_showLine hcurrent, lines,
    List.reverse_cons, List.map_append, List.map_singleton]

end Page

end Manpage
