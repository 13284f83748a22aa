import Manpage.Proofs.Page.Sheet

/-!
# Greedy filling

Words are set on lines one after another: a word joins the latest line if it fits there behind a
space, and begins a line of its own otherwise. A page does not proceed that way. It puts a space
behind every word at once, and where there is no room for the space, it ends the line. The lines are
the same, since no word fits on a line that has no room for a space.

## Main definitions

* `Manpage.Text.addWord`, `Manpage.Text.fill` — words set on lines, as many on a line as fit.
* `Manpage.Sheet.Ready` — a sheet with words set on it, at which the next word may come.
* `Manpage.Sheet.Bears` — the same, with less said of the space behind the words.

## Main results

* `Manpage.Sheet.Bears.exists_word` — a word with a text at its end that belongs to it.
* `Manpage.Sheet.Ready.space` — further spaces make no difference.
* `Manpage.Sheet.Ready.word` — a word and the space behind it.
* `Manpage.Sheet.Ready.blankLine` — an empty line after words, unless the last line is full.
-/

namespace Manpage

/-! ## Words on lines -/

namespace Text

/-- A word added to lines, the latest line first. It joins the latest line, behind a space, if it
fits there; otherwise it begins a line, behind the padding. -/
def addWord (padding width : Nat) : List Text → Text → List Text
  | [], w => [spaces padding ++ w]
  | l :: ls, w =>
    if l.length + 1 + w.length ≤ width then (l ++ ' ' :: w) :: ls
    else (spaces padding ++ w) :: l :: ls

/-- Words set on lines, as many on a line as fit, the first line first. -/
def fill (padding width : Nat) (words : List Text) : List Text :=
  (words.foldl (addWord padding width) []).reverse

example : fill 0 5 [['a', 'b'], ['c', 'd'], ['a', 'b', 'c', 'd', 'e', 'f'], ['x']] =
    [['a', 'b', ' ', 'c', 'd'], ['a', 'b', 'c', 'd', 'e', 'f'], ['x']] := by
  decide

/-- With a word added there is a line. -/
theorem addWord_ne_nil (padding width : Nat) (ls : List Text) (w : Text) :
    addWord padding width ls w ≠ [] := by
  cases ls with
  | nil => simp [addWord]
  | cons l ls =>
    simp only [addWord]
    split <;> simp

end Text

/-! ## Sheets with words -/

namespace Sheet

variable {s : Sheet} {base lines ls : List Text} {l v : Text}

/-- A fresh line leaves the width of a sheet as it is. -/
@[simp] theorem width_startLine (s : Sheet) : s.startLine.width = s.width := rfl

/-- A fresh line leaves the padding of a sheet as it is. -/
@[simp] theorem padding_startLine (s : Sheet) : s.startLine.padding = s.padding := rfl

/-- A break leaves the width of a sheet as it is. -/
@[simp] theorem width_breakLine (s : Sheet) : s.breakLine.width = s.width := rfl

/-- A break leaves the padding of a sheet as it is. -/
@[simp] theorem padding_breakLine (s : Sheet) : s.breakLine.padding = s.padding := rfl

/-- A line that ends in ink. -/
structure EndsInInk (l : Text) : Prop where
  not_blank : ¬ l.isBlank = true
  strip_eq : l.stripRight = l

/-- A line that ends in ink is not empty. -/
theorem EndsInInk.ne_nil (h : EndsInInk l) : l ≠ [] := by
  rintro rfl
  exact h.not_blank rfl

/-- The last character of a line that ends in ink is no blank. -/
theorem EndsInInk.getLast?_any (h : EndsInInk l) : l.getLast?.any isSpace = false := by
  have hlast := List.rdropWhile_eq_self_iff.mp h.strip_eq h.ne_nil
  rw [List.getLast?_eq_some_getLast h.ne_nil]
  simpa using hlast

/-- What is put before ink ends in ink with it. -/
theorem endsInInk_append (l : Text) (hne : v ≠ []) (hink : v.isInk = true) :
    EndsInInk (l ++ v) := by
  have hstrip : (l ++ v).stripRight = l ++ v := Text.stripRight_append_of_isInk l hink hne
  refine ⟨?_, hstrip⟩
  intro hblank
  rw [← Text.stripRight_eq_nil_iff, hstrip, List.append_eq_nil_iff] at hblank
  exact hne hblank.2

/-- A sheet with words set on the given lines, the latest first, above other lines. The current line
is the latest of them with a space behind it, or a fresh one where the latest has no room for a
space. -/
def Ready (base lines : List Text) (s : Sheet) : Prop :=
  match lines with
  | [] => s.finished = base ∧ s.line = Text.spaces s.padding
  | l :: ls =>
    EndsInInk l ∧
      ((s.finished = ls ++ base ∧ s.line = l ++ [' '] ∧ l.length < s.width) ∨
        (s.finished = l :: ls ++ base ∧ s.line = Text.spaces s.padding ∧ s.width ≤ l.length))

/-- A sheet with words set on the given lines, as `Manpage.Sheet.Ready` has it, but for the space,
which may be one for which there is no room. -/
def Bears (base lines : List Text) (s : Sheet) : Prop :=
  match lines with
  | [] => s.finished = base ∧ s.line = Text.spaces s.padding
  | l :: ls =>
    EndsInInk l ∧
      ((s.finished = ls ++ base ∧ s.line = l ++ [' ']) ∨
        (s.finished = l :: ls ++ base ∧ s.line = Text.spaces s.padding ∧ s.width ≤ l.length))

/-- A sheet that is ready for another word bears its lines. -/
theorem Ready.bears (h : s.Ready base lines) : s.Bears base lines := by
  cases lines with
  | nil => exact h
  | cons l ls =>
    obtain ⟨hl, ⟨hfinished, hline, -⟩ | hfresh⟩ := h
    · exact ⟨hl, Or.inl ⟨hfinished, hline⟩⟩
    · exact ⟨hl, Or.inr hfresh⟩

/-- A word on a line that is blank. -/
theorem word_of_isBlank (hne : v ≠ []) (hblank : s.line.isBlank = true) :
    s.word v = { s with line := s.line ++ v } := by
  rw [Sheet.word, if_neg hne, hblank]
  rfl

namespace Bears

/-- Further spaces make no difference. A space stands at the end of the line already, or the line
holds its padding and nothing else. -/
theorem space (h : s.Bears base lines) : s.space = s := by
  have hfresh : s.line = Text.spaces s.padding → s.space = s := by
    intro hline
    rw [Sheet.space, hline, Text.isBlank_spaces]
    rfl
  cases lines with
  | nil => exact hfresh h.2
  | cons l ls =>
    obtain ⟨-, ⟨-, hline⟩ | ⟨-, hline, -⟩⟩ := h
    · have hlast : s.line.getLast?.any isSpace = true := by
        rw [hline, List.getLast?_concat]
        rfl
      rw [Sheet.space, hlast, Bool.or_true, if_pos rfl]
    · exact hfresh hline

/-- A word with a text at its end that belongs to it. The word is added to the lines as if they were
so much shorter, and the text stands behind it.

**Proof sketch.** On a line that is blank the word stays, and if there is a latest line, it had no
room for a space, let alone for the word behind it. On a line with a space at its end the word stays
if the whole line fits. -/
theorem exists_word (h : s.Bears base lines) (hne : v ≠ []) (hink : v.isInk = true) (u : Text) :
    ∃ l ls, Text.addWord s.padding (s.width - u.length) lines v = l :: ls ∧ EndsInInk l ∧
      (s.word (v ++ u)).line = l ++ u ∧ (s.word (v ++ u)).finished = ls ++ base := by
  have hword : v ++ u ≠ [] := by simp [hne]
  cases lines with
  | nil =>
    obtain ⟨hfinished, hline⟩ := h
    have hblank : s.line.isBlank = true := by rw [hline, Text.isBlank_spaces]
    rw [word_of_isBlank hword hblank, hline]
    exact ⟨_, _, rfl, endsInInk_append _ hne hink, (List.append_assoc _ _ _).symm, hfinished⟩
  | cons l ls =>
    obtain ⟨hl, ⟨hfinished, hline⟩ | ⟨hfinished, hline, hfull⟩⟩ := h
    · have hblank : s.line.isBlank = false := by
        have := hl.not_blank
        simp [hline, this]
      -- behind the space the word fits or not, and the filling of texts asks the same
      have hlength : s.line.length + (v ++ u).length = l.length + 1 + v.length + u.length := by
        simp only [hline, List.length_append, List.length_singleton]
        omega
      simp only [Sheet.word, if_neg hword, hblank, Bool.not_false, Bool.true_and, decide_eq_true_eq,
        Text.addWord, hlength]
      by_cases hfits : l.length + 1 + v.length ≤ s.width - u.length
      · rw [if_pos hfits, if_neg (by omega)]
        have hl' := endsInInk_append (l ++ [' ']) hne hink
        rw [List.append_assoc] at hl'
        exact ⟨_, _, rfl, hl', by simp [hline], hfinished⟩
      · rw [if_neg hfits, if_pos (by omega)]
        refine ⟨_, _, rfl, endsInInk_append _ hne hink, (List.append_assoc _ _ _).symm, ?_⟩
        show s.line.stripRight :: s.finished = _
        rw [hline, Text.stripRight_append_of_isBlank _ rfl, hl.strip_eq, hfinished]
        rfl
    · have hblank : s.line.isBlank = true := by rw [hline, Text.isBlank_spaces]
      -- the line is full, so the word stands on the next one either way
      rw [word_of_isBlank hword hblank, hline, Text.addWord, if_neg (by omega)]
      exact ⟨_, _, rfl, endsInInk_append _ hne hink, (List.append_assoc _ _ _).symm, hfinished⟩

end Bears

namespace Ready

/-- Further spaces make no difference. -/
theorem space (h : s.Ready base lines) : s.space = s :=
  h.bears.space

/-- A space behind ink: there is room for it, or the line ends.

**Proof sketch.** The line is not blank and ends in no blank, so that the space is put on it if it
fits. If it does not, the line is as long as the width, and it ends. -/
theorem of_endsInInk (hl : EndsInInk l) (hline : s.line = l) (hfinished : s.finished = ls ++ base) :
    s.space.Ready base (l :: ls) := by
  have hlast : s.line.getLast?.any isSpace = false := by
    rw [hline]
    exact hl.getLast?_any
  have hblank : s.line.isBlank = false := by
    rw [hline]
    simpa using hl.not_blank
  rw [Sheet.space, hblank, hlast]
  show Ready _ _ (if s.line.length + 1 ≤ s.width then _ else _)
  split
  · rename_i hroom
    rw [hline] at hroom
    exact ⟨hl, Or.inl ⟨hfinished, by rw [hline], hroom⟩⟩
  · rename_i hroom
    rw [hline] at hroom
    refine ⟨hl, Or.inr ⟨?_, rfl, by rw [width_breakLine]; omega⟩⟩
    rw [Sheet.breakLine, startLine, hline, hl.strip_eq, hfinished]
    rfl

/-- **A word.** A word and the space behind it are set as if the word had been added to the
lines. -/
theorem word (h : s.Ready base lines) (hne : v ≠ []) (hink : v.isInk = true) :
    (s.word v).space.Ready base (Text.addWord s.padding s.width lines v) := by
  obtain ⟨l, ls, hlines, hl, hline, hfinished⟩ := h.bears.exists_word hne hink []
  rw [List.length_nil, Nat.sub_zero] at hlines
  simp only [List.append_nil] at hline hfinished
  rw [hlines]
  exact of_endsInInk hl hline hfinished

/-- An empty line behind words: one where the latest line has room for a space, and none where it is
full, since it has ended already.

**Proof sketch.** By cases on whether the latest line has ended. If it has room for a space, the
space stands behind it still: the line ends, and another one is left empty. If it is full, the line
is blank and is kept as the empty one. -/
theorem blankLine (h : s.Ready base (l :: ls)) :
    s.blankLine.Ready
      (if l.length < s.width then [] :: l :: ls ++ base else l :: ls ++ base) [] := by
  obtain ⟨hl, ⟨hfinished, hline, hroom⟩ | ⟨hfinished, hline, hfull⟩⟩ := h
  · have hblank : ¬ s.line.isBlank = true := by
      have := hl.not_blank
      simp [hline, this]
    rw [if_pos hroom, Sheet.blankLine, if_neg hblank]
    refine ⟨?_, rfl⟩
    show (Text.spaces s.padding).stripRight :: s.line.stripRight :: s.finished = _
    rw [Text.stripRight_eq_nil_iff.mpr (Text.isBlank_spaces s.padding), hline,
      Text.stripRight_append_of_isBlank _ rfl, hl.strip_eq, hfinished]
    rfl
  · have hblank : s.line.isBlank = true := by rw [hline, Text.isBlank_spaces]
    rw [if_neg (by omega), Sheet.blankLine, if_pos hblank]
    exact ⟨hfinished, rfl⟩

/-- An empty line where no word has been set. -/
theorem blankLine_nil (h : s.Ready base []) : s.blankLine.Ready base [] := by
  obtain ⟨hfinished, hline⟩ := h
  have hblank : s.line.isBlank = true := by rw [hline, Text.isBlank_spaces]
  rw [Sheet.blankLine, if_pos hblank]
  exact ⟨hfinished, rfl⟩

/-- Lines that are ended behind words that have room for a space.

**Proof sketch.** The first break ends the line of the words; each of the others finds a blank line,
and leaves an empty one. That is an induction on their number. -/
theorem breakLines (h : s.Ready base (l :: ls)) (hroom : l.length < s.width) (n : Nat) :
    (s.breakLines (n + 1)).Ready (List.replicate n [] ++ l :: ls ++ base) [] := by
  have hended : ∀ (n : Nat) {r : Sheet} {lines : List Text}, r.Ready lines [] →
      (r.breakLines n).Ready (List.replicate n [] ++ lines) [] := by
    intro n
    induction n with
    | zero => exact fun h => h
    | succ n ih =>
      rintro r lines ⟨hfinished, hline⟩
      have hbreak : r.breakLine.Ready ([] :: lines) [] := by
        refine ⟨?_, rfl⟩
        show r.line.stripRight :: r.finished = _
        rw [hline, Text.stripRight_eq_nil_iff.mpr (Text.isBlank_spaces r.padding), hfinished]
      have hmore := ih hbreak
      rwa [List.append_cons, ← List.replicate_succ'] at hmore
  obtain ⟨hl, ⟨hfinished, hline, -⟩ | ⟨-, -, hfull⟩⟩ := h
  · have hbreak : s.breakLine.Ready (l :: ls ++ base) [] := by
      refine ⟨?_, rfl⟩
      show s.line.stripRight :: s.finished = _
      rw [hline, Text.stripRight_append_of_isBlank _ rfl, hl.strip_eq, hfinished]
      rfl
    have hmore := hended n hbreak
    rwa [← List.append_assoc] at hmore
  · omega

/-- Words that leave no room for a space leave a fresh line. -/
theorem of_full (h : s.Ready base (l :: ls)) (hfull : s.width ≤ l.length) :
    s.Ready (l :: ls ++ base) [] := by
  obtain ⟨-, ⟨-, -, hroom⟩ | ⟨hfinished, hline, -⟩⟩ := h
  · omega
  · exact ⟨hfinished, hline⟩

end Ready

end Sheet

end Manpage
