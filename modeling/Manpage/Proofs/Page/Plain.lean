import Manpage.Proofs.Page.Change

/-!
# What output leaves alone

Texts, spaces, line ends and words change the lines of a page and nothing else: style, indents and
margins stay as they are. In the plain style, nothing is put on a page but pieces without a face.

## Main definitions

* `Manpage.Page.Settings`, `Manpage.Page.settings` — style, indents and margins of a page.
* `Manpage.Page.IsPlain` — a page in the plain style, with nothing on it that has a face.

## Main results

* `Manpage.Page.settings_append`, `Manpage.Page.settings_blankLine`,
  `Manpage.Page.settings_closeWord` — output leaves the settings alone.
* `Manpage.Page.IsPlain.append`, `Manpage.Page.IsPlain.blankLine`,
  `Manpage.Page.IsPlain.closeWord` — a plain page stays one.
-/

namespace Manpage.Page

variable {p q : Page} {t : Text} {x : Piece}

/-! ## Settings -/

/-- What a page is to do with the texts that come. -/
structure Settings where
  style : Style
  noFill : Bool
  indent : Int
  storedIndent : Option Int
  margins : List Int

/-- The settings of a page. -/
def settings (p : Page) : Settings :=
  ⟨p.style, p.noFill, p.indent, p.storedIndent, p.margins⟩

/-- The padding of lines, for lines of a given width. -/
def Settings.padding (st : Settings) (width : Nat) : Nat :=
  (min (st.margins.foldr (· + ·) 0 + st.indent) width).toNat

/-- The padding of a page follows from its settings and its width. -/
theorem padding_eq (p : Page) : p.padding = p.settings.padding p.width := rfl

/-- A fresh line leaves the settings as they are. -/
@[simp] theorem settings_startLine (p : Page) : p.startLine.settings = p.settings := rfl

/-- A break leaves the settings as they are. -/
@[simp] theorem settings_breakLine (p : Page) : p.breakLine.settings = p.settings := rfl

/-- The end of a line leaves the settings as they are. -/
@[simp] theorem settings_lineBreak (p : Page) : p.lineBreak.settings = p.settings := by
  unfold lineBreak
  split <;> rfl

/-- An empty line leaves the settings as they are. -/
@[simp] theorem settings_blankLine (p : Page) : p.blankLine.settings = p.settings := by
  unfold blankLine
  split <;> rfl

/-- Breaks leave the settings as they are, however many there are. -/
@[simp] theorem settings_breakLines (p : Page) (n : Nat) :
    (p.breakLines n).settings = p.settings := by
  induction n generalizing p with
  | zero => rfl
  | succ n ih => exact ih p.breakLine

/-- Putting a text leaves the settings as they are. -/
@[simp] theorem settings_put (p : Page) (t : Text) : (p.put t).settings = p.settings := by
  unfold put
  cases p.word <;> rfl

/-- What a text amounts to, wherever it is appended.

**Proof sketch.** By cases on whether the text is empty, or a line feed, and on whether a word is
open. It is what is left of the text's cases where their conditions do not matter. -/
theorem append_eq (p : Page) (t : Text) : p.append t = p ∨ p.append t = p.put t ∨
    p.append t = p.breakLine ∨ p.append t = p.breakLine.put t := by
  by_cases hne : t = []
  · left
    rw [append, if_pos hne]
  by_cases hfeed : t = ['\n']
  · right; right; left
    rw [append, if_neg hne, if_pos hfeed]
  cases hw : p.word with
  | some w => exact Or.inr (Or.inl (append_of_word hne hfeed hw))
  | none =>
    rcases append_cases hne hfeed hw with ⟨heq, -⟩ | heq | heq | heq
    · exact Or.inr (Or.inl heq)
    · exact Or.inl heq
    · exact Or.inr (Or.inr (Or.inl heq))
    · exact Or.inr (Or.inr (Or.inr heq))

/-- Appending a text leaves the settings as they are. -/
@[simp] theorem settings_append (p : Page) (t : Text) : (p.append t).settings = p.settings := by
  rcases append_eq p t with heq | heq | heq | heq <;> simp [heq]

/-- Appending a text leaves the width as it is. -/
@[simp] theorem width_append (p : Page) (t : Text) : (p.append t).width = p.width := by
  rcases append_eq p t with heq | heq | heq | heq <;> simp [heq]

/-- A space leaves the settings as they are. -/
@[simp] theorem settings_appendSpace (p : Page) : p.appendSpace.settings = p.settings := by
  unfold appendSpace
  split
  · rfl
  · exact settings_append p [' ']

/-- A space leaves the width as it is. -/
@[simp] theorem width_appendSpace (p : Page) : p.appendSpace.width = p.width := by
  unfold appendSpace
  split
  · rfl
  · exact width_append p [' ']

/-- Opening a word leaves the settings as they are. -/
@[simp] theorem settings_openWord (p : Page) : p.openWord.settings = p.settings := by
  unfold openWord
  cases p.word <;> rfl

/-- There are three ways to complete a word: there is none, or it is settled, or it is carried over.
-/
theorem completeWord_eq (p : Page) : p.completeWord = p ∨
    ∃ w, p.word = some w ∧ (p.completeWord = p.settleWord w ∨ p.completeWord = p.carryWord w) := by
  cases hw : p.word with
  | none =>
    left
    rw [completeWord, hw]
  | some w =>
    refine Or.inr ⟨w, rfl, ?_⟩
    rcases completeWord_cases hw with ⟨heq, -⟩ | heq
    · exact Or.inl heq
    · exact Or.inr heq

/-- Closing the block of a word leaves the settings as they are, whatever becomes of the word. The
word stays open, or it is settled or carried over, and neither touches a setting. -/
@[simp] theorem settings_closeWord (p : Page) : p.closeWord.settings = p.settings := by
  unfold closeWord
  split
  · rfl
  · split
    · rcases completeWord_eq { p with blocks := _ } with heq | ⟨w, -, heq | heq⟩
      all_goals
        rw [heq]
        rfl
    · rfl

/-! ## Pages without faces -/

/-- A page in the plain style, with nothing on it that has a face. -/
structure IsPlain (p : Page) : Prop where
  style_eq : p.style = .plain
  face_eq : ∀ x ∈ p.pieces, x.face = none

/-- An empty page is plain. -/
theorem isPlain_ofWidth (width : Int) : (ofWidth width).IsPlain :=
  ⟨rfl, by simp [pieces, currentLine, ofWidth]⟩

namespace IsPlain

/-- A page is plain if it has the style of a plain page, and only spaces have come onto it. -/
theorem of_pieces (h : p.IsPlain) (hstyle : q.style = p.style)
    (hq : ∀ x ∈ q.pieces, x = Piece.space ∨ x ∈ p.pieces) : q.IsPlain := by
  refine ⟨hstyle.trans h.style_eq, ?_⟩
  intro x hx
  rcases hq x hx with rfl | hx
  · rfl
  · exact h.face_eq x hx

/-- A fresh line leaves a page plain. -/
theorem startLine (h : p.IsPlain) : p.startLine.IsPlain :=
  h.of_pieces rfl fun _ => mem_pieces_startLine

/-- A break leaves a page plain. -/
theorem breakLine (h : p.IsPlain) : p.breakLine.IsPlain :=
  h.of_pieces rfl fun _ => mem_pieces_breakLine

/-- The end of a line leaves a page plain. -/
theorem lineBreak (h : p.IsPlain) : p.lineBreak.IsPlain := by
  unfold Page.lineBreak
  split
  · exact h.startLine
  · exact h.breakLine

/-- An empty line leaves a page plain. -/
theorem blankLine (h : p.IsPlain) : p.blankLine.IsPlain := by
  unfold Page.blankLine
  split
  · exact h.startLine
  · exact h.breakLine.breakLine

/-- Breaks leave a page plain, however many there are. -/
theorem breakLines (h : p.IsPlain) (n : Nat) : (p.breakLines n).IsPlain := by
  induction n generalizing p with
  | zero => exact h
  | succ n ih => exact ih h.breakLine

/-- Putting a text leaves a page plain: in the plain style it has no face. -/
theorem put (h : p.IsPlain) (t : Text) : (p.put t).IsPlain := by
  have hstyle : (p.put t).style = p.style := congrArg Settings.style (settings_put p t)
  refine ⟨hstyle.trans h.style_eq, ?_⟩
  intro x hx
  rcases mem_pieces_put hx with rfl | hx
  · rw [h.style_eq]
    exact ite_self none
  · exact h.face_eq x hx

/-- Appending a text leaves a page plain, with or without a break before it. There are four ways it
can go: the text is dropped, put on the line, taken for a break, or put behind one. -/
theorem append (h : p.IsPlain) (t : Text) : (p.append t).IsPlain := by
  rcases append_eq p t with heq | heq | heq | heq
  · rw [heq]
    exact h
  · rw [heq]
    exact h.put t
  · rw [heq]
    exact h.breakLine
  · rw [heq]
    exact h.breakLine.put t

/-- A space leaves a page plain. -/
theorem appendSpace (h : p.IsPlain) : p.appendSpace.IsPlain := by
  unfold Page.appendSpace
  split
  · exact h
  · exact h.append [' ']

/-- Opening a word leaves a page plain. The word is empty at first, so the pieces are those that
were there. -/
theorem openWord (h : p.IsPlain) : p.openWord.IsPlain := by
  cases hw : p.word with
  | none =>
    refine h.of_pieces (by rw [openWord_of_none hw]) fun x hx => Or.inr ?_
    rwa [pieces, currentLine_openWord hw, openWord_of_none hw] at hx
  | some w =>
    have heq : p.openWord = { p with blocks := false :: p.blocks } := by
      rw [Page.openWord, hw]
    rw [heq]
    exact h.of_pieces rfl fun x hx => Or.inr hx

/-- Completing a word leaves a page plain. -/
theorem completeWord (h : p.IsPlain) : p.completeWord.IsPlain := by
  rcases completeWord_eq p with heq | ⟨w, hw, heq⟩
  · rw [heq]
    exact h
  · have hstyle : p.completeWord.style = p.style := by
      rcases heq with heq | heq <;> rw [heq] <;> rfl
    exact h.of_pieces hstyle fun x hx => mem_pieces_completeWord hw hx

/-- Closing the block of a word leaves a page plain. Blocks are no pieces, and completing a word
leaves a page plain. -/
theorem closeWord (h : p.IsPlain) : p.closeWord.IsPlain := by
  unfold Page.closeWord
  split
  · exact h
  · rename_i outer _
    have hinner : IsPlain { p with blocks := outer } := h.of_pieces rfl fun x hx => Or.inr hx
    split
    · exact hinner.completeWord
    · exact hinner

/-- What is shown of a piece without a face are its characters. -/
theorem showLine_eq (h : p.IsPlain) {line : List Piece} (hline : ∀ x ∈ line, x ∈ p.pieces) :
    Piece.showLine line = Piece.lineText line := by
  unfold Piece.showLine Piece.lineText
  apply List.flatMap_congr
  intro x hx
  rw [Piece.shown, h.face_eq x (hline x (List.mem_reverse.mp hx))]
  rfl

end IsPlain

end Manpage.Page
