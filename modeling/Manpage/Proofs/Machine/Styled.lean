import Manpage.Proofs.Machine.Filling
import Manpage.Proofs.Page.Marked
import Manpage.Proofs.Program.Styled

/-!
# Lines with font escapes on a page

What the instructions for a line of words with font escapes do to a page on which lines are filled.
The styles make no difference to the lines. The space that a font escape leaves at the end of a line
belongs to the word before it, which is set as a word with a mark.

## Main definitions

* `Manpage.Machine.Bears` — a machine that has set words on lines, in whatever style.

## Main results

* `Manpage.Machine.Bears.text`, `Manpage.Machine.Bears.prose` — the instructions for a line of words
  with font escapes, and for several lines.
-/

namespace Manpage

variable {m : Machine} {s : Sheet} {v u : Text} {lines : List Text} {ws : List (Text × Bool)}
  {i : Instr} {is js : List Instr} {c : Machine.Context} {width padding : Nat} {ends : Bool}

namespace Machine

/-! ## Words -/

/-- A change of style leaves the word as it is. The style is a setting of the page, and of what is
on it nothing changes. -/
theorem Opened.restyle (h : m.Opened c s u) (hi : i.isStyling = true) :
    ∃ c', (m.apply i).Opened c' s u := by
  have hpage : ∀ style, Page.Opened s u { m.page with style := style } := fun _ =>
    ⟨h.page.width_eq, h.page.padding_eq, h.page.finished_eq, h.page.line_eq, h.page.noFill_eq,
      ⟨h.page.accounted.extent_eq, h.page.accounted.pure⟩, h.page.exists_word⟩
  cases i with
  | setStyle | plainStyle =>
    exact ⟨⟨c.width, _, c.scopes⟩, rfl, h.scopes_eq, h.width_eq, h.isVisible, hpage _, h.blocks⟩
  | _ => exact Bool.noConfusion hi

/-- The instructions in a word with font escapes put its text together. By induction: fonts and
records show nothing, and a text is put behind those before it. -/
theorem Opened.exec_styled (h : m.Opened c s u) (his : IsStyledWord v is) :
    ∃ c', (m.exec is).Opened c' s (u ++ v) := by
  induction is generalizing m c u v with
  | nil =>
    obtain rfl : [] = v := his.shown_eq
    rw [List.append_nil]
    exact ⟨c, h⟩
  | cons i is ih =>
    have hrest : IsStyledWord (is.flatMap Instr.shown) is :=
      ⟨fun j hj => his.each j (List.mem_cons_of_mem i hj), rfl⟩
    rw [← his.shown_eq, List.flatMap_cons, ← List.append_assoc, exec_cons]
    rcases his.each i List.mem_cons_self with hrecord | hstyling | ⟨t, rfl, hne, hink⟩
    · rw [Instr.shown_eq_nil (Or.inl hrecord), List.append_nil]
      exact ih (h.record hrecord) hrest
    · obtain ⟨c', hstyled⟩ := h.restyle hstyling
      rw [Instr.shown_eq_nil (Or.inr hstyling), List.append_nil]
      exact ih hstyled hrest
    · exact ih (h.emit hne hink) hrest

/-- The space that a font escape leaves at the end of a line is put into the word. Ink is at the end
of the word, so the space is not left out. -/
theorem Opened.exec_endSpace (h : m.Opened c s v) (hne : v ≠ []) (hink : v.isInk = true)
    (ends : Bool) : (m.exec (endSpace ends)).Opened c s (v ++ Text.spaces ends.toNat) := by
  cases ends with
  | false =>
    show m.Opened c s (v ++ [])
    rwa [List.append_nil]
  | true =>
    obtain ⟨w, hw, -⟩ := h.page.exists_word
    have hblocks : m.page.appendSpace.blocks = m.page.blocks := by
      unfold Page.appendSpace
      split
      · rfl
      · rw [Page.append_of_word (by simp) (by decide) hw, Page.blocks_put]
    exact h.output (f := Page.appendSpace) (h.page.appendSpace hne hink)
      (Page.settings_appendSpace m.page) hblocks

end Machine

/-- A word with font escapes is ink. Its characters are those of the texts that are shown, and each
of these is ink. -/
theorem IsStyledWord.isInk (h : IsStyledWord v is) : v.isInk = true := by
  rw [← h.shown_eq, Text.isInk_iff]
  intro c hc
  obtain ⟨i, hi, hc⟩ := List.mem_flatMap.mp hc
  rcases h.each i hi with hrecord | hstyling | ⟨t, rfl, -, hink⟩
  · rw [Instr.shown_eq_nil (Or.inl hrecord)] at hc
    exact absurd hc List.not_mem_nil
  · rw [Instr.shown_eq_nil (Or.inr hstyling)] at hc
    exact absurd hc List.not_mem_nil
  · exact Text.isInk_iff.mp hink c hc

namespace Machine

/-! ## Lines -/

/-- A machine that has set words on lines, the latest line first, in whatever style, and may get the
next word. -/
structure Bears (width padding : Nat) (lines : List Text) (m : Machine) : Prop where
  exists_sheet : ∃ c s, m.Sets c s ∧ s.width = width ∧ s.padding = padding ∧ s.Bears [] lines

/-- A machine that fills lines bears them, ready for the next word. -/
theorem Fills.bears (h : m.Fills c [] lines) : m.Bears c.width c.padding lines := by
  obtain ⟨s, hsets, hready⟩ := h
  exact ⟨c, s, hsets, hsets.width_eq, hsets.padding_eq, hready.bears⟩

/-- Further spaces make no difference. -/
theorem Bears.space {n : Machine} (h : m.Bears width padding lines)
    (hn : ∀ {c s}, m.Sets c s → n.Sets c s.space) : n.Bears width padding lines := by
  obtain ⟨c, s, hsets, hwidth, hpadding, hbears⟩ := h
  have hspace := hn hsets
  rw [hbears.space] at hspace
  exact ⟨c, s, hspace, hwidth, hpadding, hbears⟩

/-- A word, perhaps with a font escape at the end of the line, and the space behind it or the end of
the line.

**Proof sketch.** The word is opened, filled and closed, with the space of the escape inside if
there is one. It is then set with its mark, and what the style is in the end does not matter for the
lines. -/
theorem Bears.word (h : m.Bears width padding lines) (his : IsStyledWord v is) (hne : v ≠ [])
    (ends : Bool) (hjs : js = [.endLine] ∨ ∃ t b, js = [.consume t, .blank b]) :
    (m.exec (.openWord :: is ++ (endSpace ends ++ .closeScope :: js))).Bears width padding
      (Text.addMarked padding width lines (v, ends)) := by
  obtain ⟨c, s, hsets, rfl, rfl, hbears⟩ := h
  obtain ⟨c', hopened⟩ := hsets.openWord.exec_styled his
  have hword := (hopened.exec_endSpace hne his.isInk ends).closeScope
  have hspace : (m.exec (.openWord :: is ++ (endSpace ends ++ .closeScope :: js))).Sets c'
      (s.word (v ++ Text.spaces ends.toNat)).space := by
    rw [exec_append, exec_append, exec_cons, exec_cons]
    rcases hjs with rfl | ⟨t, b, rfl⟩
    · exact hword.endLine
    · exact (hword.record (i := .consume t) rfl).blank b
  refine ⟨c', _, hspace, ?_, ?_, hbears.word hne his.isInk ends⟩
  · rw [Sheet.width_space, Sheet.width_word]
  · rw [Sheet.padding_space, Sheet.padding_word]

/-- **A line of words with font escapes.** Its words are added to the lines with their marks.

**Proof sketch.** By induction on the line. Each word is set with the space behind it, whatever the
style is; only the last one may have a mark. -/
theorem Bears.text (h : m.Bears width padding lines) (his : IsStyledText ws is)
    (hws : ∀ w ∈ ws, w.1 ≠ []) :
    (m.exec is).Bears width padding (ws.foldl (Text.addMarked padding width) lines) := by
  induction his generalizing m lines with
  | done => exact h.space Sets.endLine
  | blank t b _ ih =>
    refine ih (h.space fun hsets => ?_) hws
    exact (hsets.record (i := .consume t) rfl).blank b
  | last ends his =>
    exact h.word his (hws _ List.mem_cons_self) ends (Or.inl rfl)
  | @word t b v ws is js his _ ih =>
    have hword := h.word his (hws _ List.mem_cons_self) false (Or.inr ⟨t, b, rfl⟩)
    have hmore := ih hword fun w hw => hws w (List.mem_cons_of_mem _ hw)
    have happend : Instr.openWord :: is ++ .closeScope :: .consume t :: .blank b :: js =
        (.openWord :: is ++ (endSpace false ++ .closeScope :: [.consume t, .blank b])) ++ js := by
      simp [endSpace]
    rw [happend, exec_append]
    exact hmore

/-- The beginning of a source line leaves the lines as they are. -/
theorem Bears.beginLine (h : m.Bears width padding lines) :
    (m.apply .beginLine).Bears width padding lines := by
  obtain ⟨c, s, hsets, hrest⟩ := h
  exact ⟨c, s, hsets.beginLine, hrest⟩

/-- **Lines of words with font escapes.** By induction on the lines. -/
theorem Bears.prose (h : m.Bears width padding lines) (his : IsStyledLines ws is)
    (hws : ∀ w ∈ ws, w.1 ≠ []) :
    (m.exec is).Bears width padding (ws.foldl (Text.addMarked padding width) lines) := by
  induction his generalizing m lines with
  | nil => exact h
  | line htext _ ih =>
    rw [List.forall_mem_append] at hws
    rw [List.cons_append, exec_cons, exec_append, List.foldl_append]
    exact ih (h.beginLine.text htext hws.1) hws.2

end Machine

/-! ## Instructions that cannot fail -/

/-- The instructions for a word with font escapes cannot fail. -/
theorem IsStyledWord.isSafe (h : IsStyledWord v is) : ∀ i ∈ is, i.isSafe = true := by
  intro i hi
  rcases h.each i hi with hrecord | hstyling | ⟨t, rfl, -, -⟩
  · exact Instr.isSafe_of_isPlain (Instr.isPlain_of_isRecord hrecord)
  · cases i <;> first | rfl | exact Bool.noConfusion hstyling
  · rfl

/-- The instructions for the words of a line, with font escapes, cannot fail. By induction on the
words. -/
theorem IsStyledText.isSafe (h : IsStyledText ws is) : ∀ i ∈ is, i.isSafe = true := by
  induction h with
  | done => simp [Instr.isSafe]
  | blank t b _ ih => simpa [Instr.isSafe] using ih
  | last ends hword =>
    have his := hword.isSafe
    cases ends <;> simpa [endSpace, Instr.isSafe, or_imp, forall_and] using his
  | word t b hword _ ih =>
    have his := hword.isSafe
    simpa [Instr.isSafe, or_imp, forall_and] using And.intro his ih

/-- The instructions for lines of words with font escapes cannot fail. -/
theorem IsStyledLines.isSafe (h : IsStyledLines ws is) : ∀ i ∈ is, i.isSafe = true := by
  induction h with
  | nil => simp
  | line htext _ ih => simpa [Instr.isSafe, or_imp, forall_and] using And.intro htext.isSafe ih

end Manpage
