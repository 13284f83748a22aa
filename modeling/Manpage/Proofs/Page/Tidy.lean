import Manpage.Proofs.Page.Steady
import Manpage.Proofs.Text.Shown

/-!
# Tidy pages

Whatever a source does to a page, its pieces are texts of the source, and no blanks end a finished
line. The lines of the text are then the lines of the page, and the characters of a line are got
back by erasing the control sequences.

## Main definitions

* `Manpage.Page.Tidy` — a page with texts of a source only, and trimmed lines.

## Main results

* `Manpage.Page.steady_tidy` — pages stay tidy.
* `Manpage.Page.Tidy.splitOn_text` — the lines of the text are those of the page.
* `Manpage.Page.Tidy.exists_of_mem_splitOn` — a line of the text is empty or a line of the page.
* `Manpage.Page.Tidy.eraseControls_showLine` — what is left of a line without its control sequences.
-/

namespace Manpage

variable {source : Text} {p q : Page} {x : Piece}

/-- A piece of ink of a source, or one of its blanks without a face. -/
structure Piece.IsOf (source : Text) (x : Piece) : Prop where
  sort : x.text.IsInkOf source ∨ x.text.IsBlankOf source
  face_eq : x.isBlank = true → x.face = none

namespace Piece.IsOf

/-- A single plain space is a piece of every source. -/
theorem space (source : Text) : Piece.space.IsOf source :=
  ⟨Or.inr (Text.isBlankOf_space source), fun _ => rfl⟩

/-- A piece of a source is pure. -/
theorem isPure (h : x.IsOf source) : x.IsPure := by
  refine ⟨?_, ?_, h.face_eq⟩
  · rcases h.sort with ht | ht
    · exact ht.ne_nil
    · exact ht.ne_nil
  · rcases h.sort with ht | ht
    · exact Or.inr ht.isInk
    · exact Or.inl ht.isBlank

/-- No line feed comes onto a line. -/
theorem newline_not_mem (h : x.IsOf source) : '\n' ∉ x.shown := by
  have htext : '\n' ∉ x.text := by
    rcases h.sort with ht | ht
    · exact Text.newline_not_mem_of_isInk ht.isInk
    · exact ht.not_mem
  exact Text.newline_not_mem_showIn x.face htext

/-- Where the source has no escape character, no text on the page has one. Its characters are of the
source, or of those that an escape stands for, and the escape character is none of these. -/
theorem escape_not_mem (h : x.IsOf source) (hsource : '\x1b' ∉ source) : '\x1b' ∉ x.text := by
  intro hmem
  rcases h.sort with ht | ht
  · rcases ht.mem _ hmem with hc | hc
    · exact hsource hc
    · exact absurd hc (by decide)
  · rcases ht.mem _ hmem with hc | hc
    · exact hsource hc
    · exact absurd hc (by decide)

end Piece.IsOf

namespace Page

/-- A page with texts of a source only, and without blanks at the ends of its finished lines. -/
structure Tidy (source : Text) (p : Page) : Prop where
  isOf : ∀ x ∈ p.pieces, x.IsOf source
  trimmed : p.Trimmed

/-- An empty page is tidy for every source. -/
theorem tidy_ofWidth (source : Text) (width : Int) : (ofWidth width).Tidy source :=
  ⟨by simp [pieces, currentLine, ofWidth], trimmed_ofWidth width⟩

/-- A text of the source leaves a page tidy, whether a word is open or not. -/
theorem Tidy.put {t : Text} (h : p.Tidy source) (ht : t.IsInkOf source ∨ t.IsBlankOf source) :
    (p.put t).Tidy source := by
  refine ⟨?_, h.trimmed.put t⟩
  intro x hx
  rcases mem_pieces_put hx with rfl | hx
  · exact ⟨ht, fun hb => if_pos hb⟩
  · exact h.isOf x hx

/-- Pages stay tidy: their pieces stem from the source, and their finished lines end in no blank.

**Proof sketch.** One case for each change of a page. New pieces are the spaces of a padding or the
text that is put, which stems from the source; a line that is finished loses the blanks at its end.
-/
theorem steady_tidy (source : Text) : Steady source fun _ p => p.Tidy source where
  sameLines := by
    intro _ p q hpq h
    refine ⟨?_, hpq.trimmed h.trimmed⟩
    rw [hpq.pieces_eq]
    exact h.isOf
  startLine := by
    intro p h
    refine ⟨?_, h.trimmed.startLine⟩
    intro x hx
    rcases mem_pieces_startLine hx with rfl | hx
    · exact Piece.IsOf.space source
    · exact h.isOf x hx
  breakLine := by
    intro p h
    refine ⟨?_, h.trimmed.breakLine⟩
    intro x hx
    rcases mem_pieces_breakLine hx with rfl | hx
    · exact Piece.IsOf.space source
    · exact h.isOf x hx
  put := fun _ ht _ h => h.put ht
  openWord := by
    intro p hw h
    refine ⟨?_, ?_⟩
    · rw [pieces, currentLine_openWord hw, openWord_of_none hw]
      exact h.isOf
    · rw [openWord_of_none hw]
      exact h.trimmed
  putInk := fun _ ht h => h.put (Or.inl ht)
  putSpace := fun _ _ h => ⟨h.put (Or.inr (Text.isBlankOf_space source)), h⟩
  completeWord := by
    intro _ p w _ hw h
    refine ⟨?_, h.trimmed.completeWord hw⟩
    intro x hx
    rcases mem_pieces_completeWord hw hx with rfl | hx
    · exact Piece.IsOf.space source
    · exact h.isOf x hx

/-! ## The lines of the text -/

namespace Tidy

/-- The pieces of a tidy page are pure. -/
theorem isPure (h : p.Tidy source) : ∀ x ∈ p.pieces, x.IsPure :=
  fun x hx => (h.isOf x hx).isPure

/-- The lines of a tidy page hold pieces of the source. -/
theorem isOf_of_mem_lines (h : p.Tidy source) {line : List Piece} (hline : line ∈ p.lines) :
    ∀ x ∈ line, x.IsOf source :=
  fun x hx => h.isOf x (mem_pieces_of_mem_lines hline hx)

/-- The lines of a text that is not empty are those of the page, without the empty ones at the
end. -/
theorem splitOn_text (h : p.Tidy source) (hne : p.text ≠ []) :
    p.text.splitOn '\n' = (p.lines.map Piece.showLine).rdropWhile List.isEmpty := by
  have htext := text_eq h.isPure h.trimmed
  have hshown : (p.lines.map Piece.showLine).rdropWhile List.isEmpty ≠ [] := by
    intro hnil
    rw [hnil] at htext
    exact hne htext
  rw [htext, Text.splitOn_join hshown]
  intro l hl hfeed
  obtain ⟨line, hline, rfl⟩ := List.mem_map.mp ((List.rdropWhile_prefix _ _).subset hl)
  obtain ⟨x, hx, hfeed⟩ := List.mem_flatMap.mp hfeed
  exact (h.isOf_of_mem_lines hline x (List.mem_reverse.mp hx)).newline_not_mem hfeed

/-- A line of the text is empty or a line of the page. -/
theorem exists_of_mem_splitOn (h : p.Tidy source) {l : Text} (hl : l ∈ p.text.splitOn '\n') :
    l = [] ∨ ∃ line ∈ p.lines, l = Piece.showLine line := by
  by_cases hne : p.text = []
  · rw [hne] at hl
    exact Or.inl (by simpa using hl)
  · rw [h.splitOn_text hne] at hl
    obtain ⟨line, hline, rfl⟩ := List.mem_map.mp ((List.rdropWhile_prefix _ _).subset hl)
    exact Or.inr ⟨line, hline, rfl⟩

/-- What is left of a line without its control sequences are its characters. -/
theorem eraseControls_showLine (h : p.Tidy source) (hsource : '\x1b' ∉ source)
    {line : List Piece} (hline : line ∈ p.lines) :
    Text.eraseControls (Piece.showLine line) = Piece.lineText line :=
  Piece.eraseControls_showLine fun x hx => (h.isOf_of_mem_lines hline x hx).escape_not_mem hsource

/-- No blank piece ends a line of a page. -/
theorem dropWhile_of_mem_lines (h : p.Tidy source) {line : List Piece} (hline : line ∈ p.lines) :
    line.dropWhile Piece.isBlank = line := by
  rw [lines, List.mem_reverse, List.mem_cons] at hline
  rcases hline with rfl | hline
  · exact List.dropWhile_idempotent Piece.isBlank p.currentLine
  · exact h.trimmed line hline

/-- The lines of a page end in no blanks. -/
theorem stripRight_lineText (h : p.Tidy source) {line : List Piece} (hline : line ∈ p.lines) :
    (Piece.lineText line).stripRight = Piece.lineText line := by
  have hpure : ∀ x ∈ line, x.IsPure := fun x hx => (h.isOf_of_mem_lines hline x hx).isPure
  rw [← Piece.lineText_dropWhile hpure, h.dropWhile_of_mem_lines hline]

/-- A line of a tidy page is shown without blanks at its end. -/
theorem stripRight_showLine (h : p.Tidy source) {line : List Piece} (hline : line ∈ p.lines) :
    (Piece.showLine line).stripRight = Piece.showLine line := by
  have hpure : ∀ x ∈ line, x.IsPure := fun x hx => (h.isOf_of_mem_lines hline x hx).isPure
  rw [Piece.stripRight_showLine hpure, h.dropWhile_of_mem_lines hline]

end Tidy

end Page

end Manpage
