import Manpage.Proofs.Page.Plain

/-!
# What a page becomes

A page is changed in few ways only, whoever changes it: a blank line is started afresh, a line is
ended, a text of one sort is put on the line or into the open word, a word is opened or completed.
Each operation on a page comes down to some of them in a row. What is true of these is true of all
that ever happens to a page, and the operations need not be looked at again.

## Main definitions

* `Manpage.Text.visible` — a text, unless there is nothing to see of it.
* `Manpage.Page.Becomes` — a page becomes another one while some texts come onto it.

## Main results

* `Manpage.Page.becomes_append` — a text comes onto the page once.
* `Manpage.Page.becomes_closeWord`, `Manpage.Page.becomes_lineBreak`,
  `Manpage.Page.becomes_blankLine` — nothing else comes onto it.
-/

namespace Manpage

/-- The text by itself, unless it is blank. -/
def Text.visible (t : Text) : List Text :=
  if t.isBlank then [] else [t]

/-- A blank text is not seen. -/
theorem Text.visible_of_isBlank {t : Text} (h : t.isBlank = true) : t.visible = [] :=
  if_pos h

/-- A text of ink is seen, unless it is empty. -/
theorem Text.visible_of_isInk {t : Text} (h : t.isInk = true) (hne : t ≠ []) : t.visible = [t] := by
  rw [visible, isBlank_eq_false_of_isInk h hne]
  rfl

namespace Page

variable {p : Page} {t : Text}

/-- A page becomes another one, and on the way these texts come onto it, beside blanks. -/
inductive Becomes : Page → List Text → Page → Prop
  | sameLines {p q : Page} (h : p.SameLines q) : Becomes p [] q
  | startLine {p : Page} (hblank : p.isLineBlank = true) : Becomes p [] p.startLine
  | breakLine (p : Page) : Becomes p [] p.breakLine
  | put {p : Page} {t : Text} (hne : t ≠ []) (hsort : t.isBlank = true ∨ t.isInk = true) :
      Becomes p t.visible (p.put t)
  | openWord {p : Page} (hw : p.word = none) : Becomes p [] p.openWord
  | completeWord {p : Page} {w : OpenWord} (hw : p.word = some w) : Becomes p [] p.completeWord
  | trans {p q r : Page} {ts us : List Text} (hpq : Becomes p ts q) (hqr : Becomes q us r) :
      Becomes p (ts ++ us) r

/-- A page becomes itself, without anything being seen. -/
theorem becomes_refl (p : Page) : Becomes p [] p :=
  .sameLines ⟨rfl, rfl, rfl, rfl, rfl⟩

/-! ## Line ends -/

/-- The end of a line is a fresh line where the line is blank, and a break where it is not. -/
theorem becomes_lineBreak (p : Page) : Becomes p [] p.lineBreak := by
  unfold lineBreak
  split
  · rename_i hblank
    exact .startLine hblank
  · exact .breakLine p

/-- An empty line is a fresh line where the line is blank, and two breaks where it is not. -/
theorem becomes_blankLine (p : Page) : Becomes p [] p.blankLine := by
  unfold blankLine
  split
  · rename_i hblank
    exact .startLine hblank
  · exact (Becomes.breakLine p).trans (.breakLine p.breakLine)

/-- Breaks in a row are breaks one after another. -/
theorem becomes_breakLines (p : Page) (n : Nat) : Becomes p [] (p.breakLines n) := by
  induction n generalizing p with
  | zero => exact becomes_refl p
  | succ n ih => exact (Becomes.breakLine p).trans (ih p.breakLine)

/-! ## Texts -/

/-- A text that is not blank is put on the line or, after a break, on the next one. It is neither a
line feed nor a space, which are dropped or turned into a break in other cases. -/
theorem append_of_not_isBlank (h : ¬ t.isBlank = true) :
    p.append t = p.put t ∨ p.append t = p.breakLine.put t := by
  have hne : t ≠ [] := by
    rintro rfl
    exact h rfl
  have hfeed : t ≠ ['\n'] := by
    rintro rfl
    exact h (by decide)
  have hspace : t ≠ [' '] := by
    rintro rfl
    exact h (by decide)
  unfold append
  rw [if_neg hne, if_neg hfeed, if_neg hspace]
  split
  · exact Or.inl rfl
  · split
    · exact Or.inl rfl
    · exact Or.inr rfl

/-- A text of one sort comes onto the page once, and a blank one is not seen.

**Proof sketch.** By cases on what the text amounts to. If it is blank it may be dropped or replaced
by a break, and there is nothing of it to be seen; if it is ink it is put exactly once. -/
theorem becomes_append (p : Page) (hsort : t.isBlank = true ∨ t.isInk = true) :
    Becomes p t.visible (p.append t) := by
  by_cases hne : t = []
  · subst hne
    exact becomes_refl p
  by_cases hblank : t.isBlank = true
  · rcases append_eq p t with heq | heq | heq | heq
    · rw [heq, Text.visible_of_isBlank hblank]
      exact becomes_refl p
    · rw [heq]
      exact .put hne hsort
    · rw [heq, Text.visible_of_isBlank hblank]
      exact .breakLine p
    · rw [heq]
      exact (Becomes.breakLine p).trans (.put hne hsort)
  · rcases append_of_not_isBlank (p := p) hblank with heq | heq
    · rw [heq]
      exact .put hne hsort
    · rw [heq]
      exact (Becomes.breakLine p).trans (.put hne hsort)

/-- A space is nothing, or a text that is put on the line, or a break. It is not seen. -/
theorem becomes_appendSpace (p : Page) : Becomes p [] p.appendSpace := by
  unfold appendSpace
  split
  · exact becomes_refl p
  · have hspace : Text.isBlank [' '] = true := by decide
    rw [← Text.visible_of_isBlank hspace]
    exact becomes_append p (Or.inl hspace)

/-! ## Words -/

/-- Where a word is open already, opening another changes no line. -/
theorem becomes_openWord (p : Page) : Becomes p [] p.openWord := by
  cases hw : p.word with
  | none => exact .openWord hw
  | some w =>
    have heq : p.openWord = { p with blocks := false :: p.blocks } := by
      rw [openWord, hw]
    rw [heq]
    exact .sameLines ⟨rfl, rfl, rfl, rfl, rfl⟩

/-- Where no word is open, completing one changes nothing. -/
theorem becomes_completeWord (p : Page) : Becomes p [] p.completeWord := by
  cases hw : p.word with
  | none =>
    have heq : p.completeWord = p := by
      rw [completeWord, hw]
    rw [heq]
    exact becomes_refl p
  | some w => exact .completeWord hw

/-- Closing a block completes the word that it owns, and otherwise changes no line. Each block says
whether it does own the word. -/
theorem becomes_closeWord (p : Page) : Becomes p [] p.closeWord := by
  unfold closeWord
  split
  · exact becomes_refl p
  · rename_i owner outer _
    have houter : Becomes p [] { p with blocks := outer } :=
      .sameLines ⟨rfl, rfl, rfl, rfl, rfl⟩
    cases owner with
    | false => exact houter
    | true => exact houter.trans (becomes_completeWord _)

end Page

end Manpage
