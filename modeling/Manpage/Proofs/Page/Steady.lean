import Manpage.Proofs.Page.Change
import Manpage.Proofs.Program.Sound

/-!
# Properties that the changes of a page keep

The instructions of a source change a page in few ways, and what they put on it are texts of one
sort that the source has. A property that these changes keep is true of the page in every state. It
may depend on whether a word is open.

## Main definitions

* `Manpage.Text.IsInkOf`, `Manpage.Text.IsBlankOf` — what a source puts on a page.
* `Manpage.Steady` — a property that the changes of a page keep.
* `Manpage.Page.Idle`, `Manpage.Page.Busy` — a page outside of words and one with an open word.

## Main results

* `Manpage.Page.Idle.append`, `Manpage.Page.Idle.lineBreak`, `Manpage.Page.Idle.blankLine` — what
  may be done to a page outside of words.
* `Manpage.Page.Busy.append`, `Manpage.Page.Busy.closeWord` — and to one with an open word.
-/

namespace Manpage

variable {source t : Text} {p q : Page} {w : OpenWord} {φ : WordPhase}

/-! ## The texts of a source -/

/-- Ink that a source puts on a page: its own, or that of an escape. -/
structure Text.IsInkOf (t source : Text) : Prop where
  ne_nil : t ≠ []
  isInk : t.isInk = true
  mem : ∀ c ∈ t, c ∈ source ∨ c ∈ ['-', '\\', '\'']

/-- Blanks that a source puts on a page: its own, or a space. -/
structure Text.IsBlankOf (t source : Text) : Prop where
  ne_nil : t ≠ []
  isBlank : t.isBlank = true
  not_mem : '\n' ∉ t
  mem : ∀ c ∈ t, c ∈ source ∨ c = ' '

/-- A space is a blank text of every source. -/
theorem Text.isBlankOf_space (source : Text) : Text.IsBlankOf [' '] source :=
  ⟨by decide, by decide, by decide, by simp⟩

/-- Ink is no line feed. -/
theorem Text.IsInkOf.ne_newline (h : t.IsInkOf source) : t ≠ ['\n'] :=
  Text.ne_newline_of_isInk h.isInk

/-- A blank text of a source is no line feed. -/
theorem Text.IsBlankOf.ne_newline (h : t.IsBlankOf source) : t ≠ ['\n'] := by
  rintro rfl
  exact h.not_mem List.mem_cons_self

/-! ## Properties of pages -/

/-- A property of pages, for each phase of words, that the changes of a page keep. -/
structure Steady (source : Text) (P : WordPhase → Page → Prop) : Prop where
  sameLines : ∀ {φ : WordPhase} {p q : Page}, p.SameLines q → P φ p → P φ q
  startLine : ∀ {p : Page}, P .outside p → P .outside p.startLine
  breakLine : ∀ {p : Page}, P .outside p → P .outside p.breakLine
  /-- a text outside of words, where it fits or the line is blank -/
  put : ∀ {p : Page} {t : Text}, p.word = none → t.IsInkOf source ∨ t.IsBlankOf source →
    p.lineLength + t.length ≤ p.width ∨ p.isLineBlank = true → P .outside p → P .outside (p.put t)
  openWord : ∀ {p : Page}, p.word = none → P .outside p → P .inside p.openWord
  putInk : ∀ {p : Page} {t : Text} {w : OpenWord}, p.word = some w → t.IsInkOf source →
    P .inside p → P .inside (p.put t)
  /-- a space in a word, which may also be left out -/
  putSpace : ∀ {φ : WordPhase} {p : Page} {w : OpenWord}, φ ≠ .outside → p.word = some w →
    P φ p → P .spaced (p.put [' ']) ∧ P .spaced p
  completeWord : ∀ {φ : WordPhase} {p : Page} {w : OpenWord}, φ ≠ .outside → p.word = some w →
    P φ p → P .outside p.completeWord

variable {P : WordPhase → Page → Prop}

/-- A page outside of words, with a property. -/
structure Page.Idle (P : WordPhase → Page → Prop) (p : Page) : Prop where
  word_eq : p.word = none
  blocks_eq : p.blocks = []
  holds : P .outside p

namespace Page.Idle

/-- Between words, a fresh line keeps what is kept. -/
theorem startLine (hP : Steady source P) (h : p.Idle P) : p.startLine.Idle P :=
  ⟨rfl, h.blocks_eq, hP.startLine h.holds⟩

/-- Between words, a break keeps what is kept. -/
theorem breakLine (hP : Steady source P) (h : p.Idle P) : p.breakLine.Idle P :=
  ⟨rfl, h.blocks_eq, hP.breakLine h.holds⟩

/-- Between words, breaks keep what is kept, however many there are. -/
theorem breakLines (hP : Steady source P) (h : p.Idle P) (n : Nat) : (p.breakLines n).Idle P := by
  induction n generalizing p with
  | zero => exact h
  | succ n ih => exact ih (h.breakLine hP)

/-- Between words, the end of a line keeps what is kept. -/
theorem lineBreak (hP : Steady source P) (h : p.Idle P) : p.lineBreak.Idle P := by
  unfold Page.lineBreak
  split
  · exact h.startLine hP
  · exact h.breakLine hP

/-- Between words, an empty line keeps what is kept. -/
theorem blankLine (hP : Steady source P) (h : p.Idle P) : p.blankLine.Idle P := by
  unfold Page.blankLine
  split
  · exact h.startLine hP
  · exact (h.breakLine hP).breakLine hP

/-- Between words, a text keeps what is kept if it is put where it fits, or on a blank line. -/
theorem put (hP : Steady source P) (ht : t.IsInkOf source ∨ t.IsBlankOf source)
    (hfits : p.lineLength + t.length ≤ p.width ∨ p.isLineBlank = true) (h : p.Idle P) :
    (p.put t).Idle P := by
  refine ⟨word_put_of_none h.word_eq, ?_, hP.put h.word_eq ht hfits h.holds⟩
  rw [blocks_put]
  exact h.blocks_eq

/-- Between words, appending a text keeps what is kept, as the text is put where it fits, or else on
a line of its own. Which of these it is does not matter, as both a put text and a break keep it. -/
theorem append (hP : Steady source P) (ht : t.IsInkOf source ∨ t.IsBlankOf source)
    (h : p.Idle P) : (p.append t).Idle P := by
  have hne : t ≠ [] := by
    rcases ht with ht | ht
    · exact ht.ne_nil
    · exact ht.ne_nil
  have hfeed : t ≠ ['\n'] := by
    rcases ht with ht | ht
    · exact ht.ne_newline
    · exact ht.ne_newline
  rcases append_cases hne hfeed h.word_eq with ⟨heq, hfits⟩ | heq | heq | heq
  · rw [heq]
    exact h.put hP ht hfits
  · rw [heq]
    exact h
  · rw [heq]
    exact h.breakLine hP
  · rw [heq]
    exact (h.breakLine hP).put hP ht (Or.inr (isLineBlank_breakLine p))

/-- Between words, a space keeps what is kept. -/
theorem appendSpace (hP : Steady source P) (h : p.Idle P) : p.appendSpace.Idle P := by
  unfold Page.appendSpace
  split
  · exact h
  · exact h.append hP (Or.inr (Text.isBlankOf_space source))

/-- Between words, a change of settings keeps what is kept. -/
theorem sameLines (hP : Steady source P) (hpq : p.SameLines q) (hblocks : q.blocks = p.blocks)
    (h : p.Idle P) : q.Idle P :=
  ⟨hpq.word_eq.trans h.word_eq, hblocks.trans h.blocks_eq, hP.sameLines hpq h.holds⟩

end Page.Idle

/-- A page with an open word, with a property. -/
structure Page.Busy (P : WordPhase → Page → Prop) (φ : WordPhase) (p : Page) : Prop where
  exists_word : ∃ w, p.word = some w
  blocks_eq : p.blocks = [true]
  holds : P φ p

namespace Page.Busy

/-- In a word, a change of settings keeps what is kept. -/
theorem sameLines (hP : Steady source P) (hpq : p.SameLines q) (hblocks : q.blocks = p.blocks)
    (h : p.Busy P φ) : q.Busy P φ := by
  obtain ⟨w, hw⟩ := h.exists_word
  exact ⟨⟨w, hpq.word_eq.trans hw⟩, hblocks.trans h.blocks_eq, hP.sameLines hpq h.holds⟩

/-- Opening a word leads from what is kept between words to what is kept in one. -/
theorem openWord (hP : Steady source P) (h : p.Idle P) : p.openWord.Busy P .inside := by
  refine ⟨?_, ?_, hP.openWord h.word_eq h.holds⟩
  · rw [openWord_of_none h.word_eq]
    exact ⟨_, rfl⟩
  · rw [openWord_of_none h.word_eq, ← h.blocks_eq]

/-- In a word, a text of ink keeps what is kept. -/
theorem append (hP : Steady source P) (ht : t.IsInkOf source) (h : p.Busy P .inside) :
    (p.append t).Busy P .inside := by
  obtain ⟨w, hw⟩ := h.exists_word
  rw [append_of_word ht.ne_nil ht.ne_newline hw]
  refine ⟨⟨_, word_put_of_some hw⟩, ?_, hP.putInk hw ht h.holds⟩
  rw [blocks_put]
  exact h.blocks_eq

/-- A space in a word, where output is visible or not. -/
theorem spaced (hP : Steady source P) (hφ : φ ≠ .outside) (h : p.Busy P φ) :
    p.Busy P .spaced := by
  obtain ⟨w, hw⟩ := h.exists_word
  exact ⟨⟨w, hw⟩, h.blocks_eq, (hP.putSpace hφ hw h.holds).2⟩

/-- In a word, a space leads to what is kept behind one, whether it is put there or left out: a
property of that phase holds either way. -/
theorem appendSpace (hP : Steady source P) (hφ : φ ≠ .outside) (h : p.Busy P φ) :
    p.appendSpace.Busy P .spaced := by
  unfold Page.appendSpace
  split
  · exact h.spaced hP hφ
  · obtain ⟨w, hw⟩ := h.exists_word
    rw [append_of_word (by decide) (by decide) hw]
    refine ⟨⟨_, word_put_of_some hw⟩, ?_, (hP.putSpace hφ hw h.holds).1⟩
    rw [blocks_put]
    exact h.blocks_eq

/-- The end of a word, which is settled or carried over, keeps what is kept, and leaves no word open
and no block. -/
theorem closeWord (hP : Steady source P) (hφ : φ ≠ .outside) (h : p.Busy P φ) :
    p.closeWord.Idle P := by
  obtain ⟨w, hw⟩ := h.exists_word
  have hsame : p.SameLines { p with blocks := [] } := ⟨rfl, rfl, rfl, rfl, rfl⟩
  have hheld := hP.completeWord (p := { p with blocks := [] }) hφ hw (hP.sameLines hsame h.holds)
  have hclose : p.closeWord = Page.completeWord { p with blocks := [] } := by
    unfold Page.closeWord
    rw [h.blocks_eq]
    rfl
  rw [hclose]
  refine ⟨?_, ?_, hheld⟩
  · rcases completeWord_cases (p := { p with blocks := [] }) hw with ⟨heq, -⟩ | heq
    · rw [heq]
      rfl
    · rw [heq]
      rfl
  · rcases completeWord_cases (p := { p with blocks := [] }) hw with ⟨heq, -⟩ | heq
    · rw [heq]
      rfl
    · rw [heq]
      rfl

end Page.Busy

end Manpage
