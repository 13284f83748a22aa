import Manpage.Proofs.Machine.Plain

/-!
# Lines that are finished already

Nothing that is done to a page looks at its finished lines, and none of them is ever taken back. So
what a machine puts on a page below finished lines is what it puts on an empty page.

## Main definitions

* `Manpage.Page.onto`, `Manpage.Machine.onto` — a page, and that of a machine, below other lines.
* `Manpage.Page.written` — the lines of a page once the current one is ended.

## Main results

* `Manpage.Machine.exec_onto` — finished lines above make no difference.
-/

namespace Manpage

/-! ## Pages -/

namespace Page

variable {p : Page} {base : List (List Piece)}

/-- The page below lines that were finished before, the latest first. -/
def onto (base : List (List Piece)) (p : Page) : Page :=
  { p with finished := p.finished ++ base }

/-- The lines of a page once the current one is ended, the first line first. A blank line is started
afresh instead. -/
def written (p : Page) : List (List Piece) :=
  p.lineBreak.finished.reverse

/-- A break below finished lines is a break of the page alone. -/
theorem onto_breakLine (base : List (List Piece)) (p : Page) :
    (p.onto base).breakLine = p.breakLine.onto base := rfl

/-- The end of a line below finished lines is one of the page alone. -/
theorem onto_lineBreak (base : List (List Piece)) (p : Page) :
    (p.onto base).lineBreak = p.lineBreak.onto base :=
  (apply_ite (onto base) (p.isLineBlank = true) p.startLine p.breakLine).symm

/-- What is written below finished lines comes behind them. -/
theorem written_onto (base : List (List Piece)) (p : Page) :
    (p.onto base).written = base.reverse ++ p.written := by
  rw [written, onto_lineBreak, written, ← List.reverse_append]
  rfl

/-- An empty line below finished lines is one of the page alone. -/
theorem onto_blankLine (base : List (List Piece)) (p : Page) :
    (p.onto base).blankLine = p.blankLine.onto base :=
  (apply_ite (onto base) (p.isLineBlank = true) p.startLine p.breakLine.breakLine).symm

/-- Breaks below finished lines are breaks of the page alone. -/
theorem onto_breakLines (base : List (List Piece)) (p : Page) (n : Nat) :
    (p.onto base).breakLines n = (p.breakLines n).onto base := by
  induction n generalizing p with
  | zero => rfl
  | succ n ih => exact ih p.breakLine

/-- Putting a text below finished lines is putting it on the page alone. -/
theorem onto_put (base : List (List Piece)) (p : Page) (t : Text) :
    (p.onto base).put t = (p.put t).onto base := by
  obtain ⟨width, style, noFill, indent, stored, margins, finished, line, extent, word, blocks⟩ := p
  cases word <;> rfl

/-- Appending a text below finished lines is appending it to the page alone. Whether it fits depends
on the current line, and a break adds its line above the others. -/
theorem onto_append (base : List (List Piece)) (p : Page) (t : Text) :
    (p.onto base).append t = (p.append t).onto base := by
  have hput := onto_put base p t
  have hnext := onto_put base p.breakLine t
  have hlength : (p.onto base).lineLength = p.lineLength := rfl
  have hblank : (p.onto base).isLineBlank = p.isLineBlank := rfl
  have hbreak := onto_breakLine base p
  simp only [append, hput, hlength, hblank, hbreak, hnext, apply_ite (onto base)]
  rfl

/-- A space below finished lines is one on the page alone. -/
theorem onto_appendSpace (base : List (List Piece)) (p : Page) :
    (p.onto base).appendSpace = p.appendSpace.onto base := by
  have happend := onto_append base p [' ']
  have hblank : (p.onto base).isLineBlank = p.isLineBlank := rfl
  have hline : (p.onto base).currentLine = p.currentLine := rfl
  simp only [appendSpace, happend, hblank, hline, apply_ite (onto base)]

/-- Opening a word below finished lines is opening it on the page alone. -/
theorem onto_openWord (base : List (List Piece)) (p : Page) :
    (p.onto base).openWord = p.openWord.onto base := by
  obtain ⟨width, style, noFill, indent, stored, margins, finished, line, extent, word, blocks⟩ := p
  cases word <;> rfl

/-- Completing a word below finished lines is completing it on the page alone. Whether it is settled
or carried over depends on the current line. -/
theorem onto_completeWord (base : List (List Piece)) (p : Page) :
    (p.onto base).completeWord = p.completeWord.onto base := by
  cases hw : p.word with
  | none =>
    have hnone : (p.onto base).word = none := hw
    simp only [completeWord, hw, hnone]
  | some w =>
    have hsome : (p.onto base).word = some w := hw
    simp only [completeWord, hw, hsome]
    exact (apply_ite (onto base) _ (p.carryWord w) (p.settleWord w)).symm

/-- Closing a block below finished lines is closing it on the page alone. The blocks are the same.
-/
theorem onto_closeWord (base : List (List Piece)) (p : Page) :
    (p.onto base).closeWord = p.closeWord.onto base := by
  have hblocks : (p.onto base).blocks = p.blocks := rfl
  unfold closeWord
  rw [hblocks]
  split
  · rfl
  · rename_i outer _
    split
    · exact onto_completeWord base { p with blocks := outer }
    · rfl

end Page

/-! ## Machines -/

namespace Machine

variable {base : List (List Piece)} {f : Page → Page}

/-- A machine with its page below lines that were finished before. -/
def onto (base : List (List Piece)) (m : Machine) : Machine :=
  m.onPage (Page.onto base)

/-- A machine works below finished lines as its page does. -/
theorem onPage_onto (m : Machine) (hf : ∀ p : Page, f (p.onto base) = (f p).onto base) :
    (m.onto base).onPage f = (m.onPage f).onto base :=
  congrArg (fun page => { m with page := page }) (hf m.page)

/-- Output below finished lines is output to the page alone. It is visible or hidden in both cases.
-/
theorem output_onto (m : Machine) (hf : ∀ p : Page, f (p.onto base) = (f p).onto base) :
    (m.onto base).output f = (m.output f).onto base := by
  have hvisible : (m.onto base).isVisible = m.isVisible := rfl
  unfold output
  rw [hvisible]
  split
  · exact onPage_onto m hf
  · rfl

/-- The end of a scope below finished lines is one on the page alone. The scopes are the same, and
what the end of one does to a page it does below any lines. -/
theorem closeScope_onto (base : List (List Piece)) (m : Machine) :
    (m.onto base).closeScope = m.closeScope.onto base := by
  have hscopes : (m.onto base).scopes = m.scopes := rfl
  unfold closeScope
  rw [hscopes]
  split
  · rfl
  · rename_i outer _
    exact onPage_onto { m with scopes := outer } (Page.onto_closeWord base)
  · rfl
  · rename_i amount outer _
    exact output_onto { m with scopes := outer, page := indentBy amount m.page }
      (Page.onto_lineBreak base)

/-- An instruction does nothing to finished lines: it does to a page on top of others what it does
to the page by itself.

**Proof sketch.** By cases on the instruction. Each asks for the line, the word and the settings,
and adds to the finished lines without a look at them. -/
theorem apply_onto (base : List (List Piece)) (m : Machine) (i : Instr) :
    (m.onto base).apply i = (m.apply i).onto base := by
  have hfill : (m.onto base).page.noFill = m.page.noFill := rfl
  cases i with
  | emit text => exact output_onto m fun p => Page.onto_append base p text
  | space => exact output_onto m (Page.onto_appendSpace base)
  | blank text =>
    refine output_onto m fun p => ?_
    rw [hfill]
    split
    · exact Page.onto_append base p text
    · exact Page.onto_appendSpace base p
  | beginLine =>
    simp only [apply, hfill]
    split
    · exact output_onto m (Page.onto_lineBreak base)
    · rfl
  | endLine =>
    simp only [apply, hfill]
    split
    · rfl
    · exact output_onto m (Page.onto_appendSpace base)
  | emptyLine =>
    refine output_onto m fun p => ?_
    rw [hfill]
    split
    · rfl
    · exact Page.onto_blankLine base p
  | lineBreak => exact output_onto m (Page.onto_lineBreak base)
  | blankLine => exact output_onto m (Page.onto_blankLine base)
  | skipLines count =>
    refine output_onto m fun p => ?_
    have hblank : (p.onto base).isLineBlank = p.isLineBlank := rfl
    unfold skipLines
    rw [hblank]
    split
    · rfl
    · exact Page.onto_breakLines base p (count + 1)
  | openWord =>
    exact congrArg (fun n : Machine => n.enter .word) (onPage_onto m (Page.onto_openWord base))
  | openTag amount =>
    exact congrArg (fun n : Machine => n.enter (.tag (amount.getD m.page.paragraphIndent)))
      (output_onto (m.onPage fun p => { p with indent := 0 }) (Page.onto_lineBreak base))
  | closeScope => exact closeScope_onto base m
  | _ => rfl

/-- **Finished lines above make no difference** to what instructions do. -/
theorem exec_onto (base : List (List Piece)) (m : Machine) (is : List Instr) :
    (m.onto base).exec is = (m.exec is).onto base := by
  induction is generalizing m with
  | nil => rfl
  | cons i is ih => rw [exec_cons, apply_onto, ih, exec_cons]

end Machine

end Manpage
