import Manpage.Proofs.Page.Greedy

/-!
# Words that need room for a space

A word with a mark stands on a page with a space at its end. It is set as other words are, but needs
room for one more column. That tells only where the word would have filled up its line: it goes to
the next line then, and the text differs from the greedy one from there on.

## Main definitions

* `Manpage.Text.addMarked`, `Manpage.Text.fillMarked` — words, some of them marked, set on lines.
* `Manpage.Text.FillsUp` — a marked word fills up its line.

## Main results

* `Manpage.Text.join_fillMarked_eq_iff` — marks make no difference just where no marked word fills
  up its line.
* `Manpage.Sheet.Bears.word` — a word with a mark, and the space behind it.
-/

namespace Manpage

namespace Text

variable {padding width : Nat} {lines ls before : List Text} {l v t : Text}
  {ws : List (Text × Bool)} {ends : Bool}

/-! ## Marked words on lines -/

/-- A word added to lines, the latest line first. A word with a mark needs room for one more
column. -/
def addMarked (padding width : Nat) (lines : List Text) (w : Text × Bool) : List Text :=
  addWord padding (width - w.2.toNat) lines w.1

/-- Words set on lines, the first line first, where those with a mark need room for one more
column. -/
def fillMarked (padding width : Nat) (words : List (Text × Bool)) : List Text :=
  (words.foldl (addMarked padding width) []).reverse

example : fillMarked 0 5 [(['a', 'b'], false), (['c', 'd'], true), (['e', 'f'], false)] =
    [['a', 'b'], ['c', 'd', ' ', 'e', 'f']] := by
  decide

/-- Among words that are added to lines, the latest line first, one with a mark fits on its line and
leaves no room there. -/
def FillsUp (padding width : Nat) (lines : List Text) (words : List (Text × Bool)) : Prop :=
  ∃ before v after, words = before ++ (v, true) :: after ∧
    ∃ l ∈ ((before.map Prod.fst).foldl (addWord padding width) lines).head?,
      l.length + 1 + v.length = width

/-- No line is filled up where there are no words. -/
theorem not_fillsUp_nil (padding width : Nat) (lines : List Text) :
    ¬ FillsUp padding width lines [] := by
  rintro ⟨before, v, after, heq, -⟩
  exact absurd heq (by simp)

/-- The first word fills up its line, or one of the others does.

**Proof sketch.** By cases on whether the word that fills up its line is the first; if it is not,
the lines before it begin with the first word added. -/
theorem fillsUp_cons : FillsUp padding width lines ((v, ends) :: ws) ↔
    (ends = true ∧ ∃ l ∈ lines.head?, l.length + 1 + v.length = width) ∨
      FillsUp padding width (addWord padding width lines v) ws := by
  constructor
  · rintro ⟨before, u, after, heq, hfull⟩
    cases before with
    | nil =>
      obtain ⟨hw, rfl⟩ := List.cons.inj heq
      obtain ⟨rfl, rfl⟩ := Prod.mk.inj hw
      exact Or.inl ⟨rfl, hfull⟩
    | cons w before =>
      obtain ⟨rfl, rfl⟩ := List.cons.inj heq
      exact Or.inr ⟨before, u, after, rfl, hfull⟩
  · rintro (⟨rfl, hfull⟩ | ⟨before, u, after, rfl, hfull⟩)
    · exact ⟨[], v, ws, rfl, hfull⟩
    · exact ⟨(v, ends) :: before, u, after, rfl, hfull⟩

/-! ## Where the marks tell -/

/-- The text of lines, the latest line first. -/
def joinUp (lines : List Text) : Text :=
  join ['\n'] lines.reverse

/-- A word that fits stands behind a space. -/
theorem joinUp_addWord_of_le (h : l.length + 1 + v.length ≤ width) :
    joinUp (addWord padding width (l :: ls) v) = joinUp (l :: ls) ++ ' ' :: v := by
  rw [addWord, if_pos h, joinUp, joinUp, List.reverse_cons, List.reverse_cons,
    join_append_singleton, join_append_singleton, List.append_assoc]

/-- A word that does not fit stands behind a line feed. -/
theorem joinUp_addWord_of_lt (h : width < l.length + 1 + v.length) :
    joinUp (addWord padding width (l :: ls) v) =
      joinUp (l :: ls) ++ '\n' :: (spaces padding ++ v) := by
  rw [addWord, if_neg (Nat.not_le.mpr h), joinUp, joinUp, List.reverse_cons, List.reverse_cons,
    join_append_singleton, join_append_singleton, ← List.reverse_cons, List.reverse_cons,
    List.flatMap_append, List.flatMap_singleton]
  simp

/-- A word that is added comes behind the text of the lines. -/
theorem joinUp_prefix_addWord (hne : lines ≠ []) (v : Text) :
    joinUp lines <+: joinUp (addWord padding width lines v) := by
  obtain ⟨l, ls, rfl⟩ := List.exists_cons_of_ne_nil hne
  rcases Nat.lt_or_ge width (l.length + 1 + v.length) with h | h
  · rw [joinUp_addWord_of_lt h]
    exact List.prefix_append _ _
  · rw [joinUp_addWord_of_le h]
    exact List.prefix_append _ _

/-- Lines that have been begun stay the beginning of the text, whatever words come behind them. -/
theorem joinUp_prefix_foldl (hne : lines ≠ []) (ws : List (Text × Bool)) :
    joinUp lines <+: joinUp (ws.foldl (addMarked padding width) lines) := by
  induction ws generalizing lines with
  | nil => exact List.prefix_refl _
  | cons w ws ih =>
    exact (joinUp_prefix_addWord hne w.1).trans (ih (addWord_ne_nil _ _ _ _))

/-- Words without marks. -/
theorem foldl_addWord_eq (padding width : Nat) (lines : List Text) (ws : List Text) :
    ws.foldl (addWord padding width) lines =
      (ws.map fun w => (w, false)).foldl (addMarked padding width) lines := by
  rw [List.foldl_map]
  rfl

/-- Two texts that go on differently from some point on are not the same. -/
theorem ne_of_prefix {a b : Char} {x y t u : Text} (h : v ++ a :: x <+: t) (h' : v ++ b :: y <+: u)
    (hab : a ≠ b) : t ≠ u := by
  obtain ⟨r, rfl⟩ := h
  obtain ⟨r', rfl⟩ := h'
  intro heq
  simp only [List.append_assoc, List.cons_append, List.append_cancel_left_eq,
    List.cons.injEq] at heq
  exact hab heq.1

/-- A marked word that fills up its line goes to the next line instead. A line feed stands before it
in the one text and a space in the other, and neither goes away with later words. -/
theorem joinUp_foldl_ne (hfull : l.length + 1 + v.length = width) (ws : List (Text × Bool)) :
    joinUp (((v, true) :: ws).foldl (addMarked padding width) (l :: ls)) ≠
      joinUp ((v :: ws.map Prod.fst).foldl (addWord padding width) (l :: ls)) := by
  have hnext : joinUp (l :: ls) ++ '\n' :: (spaces padding ++ v) <+:
      joinUp (((v, true) :: ws).foldl (addMarked padding width) (l :: ls)) := by
    have hlt : width - 1 < l.length + 1 + v.length := by omega
    rw [← joinUp_addWord_of_lt hlt]
    exact joinUp_prefix_foldl (addWord_ne_nil _ _ _ _) ws
  have hsame : joinUp (l :: ls) ++ ' ' :: v <+:
      joinUp ((v :: ws.map Prod.fst).foldl (addWord padding width) (l :: ls)) := by
    rw [← joinUp_addWord_of_le hfull.le, List.foldl_cons, foldl_addWord_eq]
    exact joinUp_prefix_foldl (addWord_ne_nil _ _ _ _) _
  exact ne_of_prefix hnext hsame (by decide)

/-- A word that does not fill up its line is added as if it had no mark. The mark makes a word
longer by one, and so it counts only where the word fits exactly. -/
theorem addMarked_eq (h : ¬ (ends = true ∧ ∃ l ∈ lines.head?, l.length + 1 + v.length = width)) :
    addMarked padding width lines (v, ends) = addWord padding width lines v := by
  cases ends with
  | false => rfl
  | true =>
    cases lines with
    | nil => rfl
    | cons l ls =>
      have hne : l.length + 1 + v.length ≠ width := fun heq => h ⟨rfl, l, rfl, heq⟩
      simp only [addMarked, addWord, Bool.toNat_true]
      by_cases hfits : l.length + 1 + v.length ≤ width
      · rw [if_pos hfits, if_pos (by omega)]
      · rw [if_neg hfits, if_neg (by omega)]

/-- Marks make no difference to the text of lines just where no marked word fills up its line.

**Proof sketch.** Induction on the words. Up to the first word that fills up its line, all words are
added as if they had no marks. That word stands behind a space without its mark and behind a line
feed with it, and whatever comes later leaves the text before it as it is. -/
theorem joinUp_foldl_eq_iff (lines : List Text) (ws : List (Text × Bool)) :
    joinUp (ws.foldl (addMarked padding width) lines) =
        joinUp ((ws.map Prod.fst).foldl (addWord padding width) lines) ↔
      ¬ FillsUp padding width lines ws := by
  induction ws generalizing lines with
  | nil => simp [not_fillsUp_nil]
  | cons w ws ih =>
    obtain ⟨v, ends⟩ := w
    rw [fillsUp_cons]
    by_cases hfull : ends = true ∧ ∃ l ∈ lines.head?, l.length + 1 + v.length = width
    · obtain ⟨rfl, l, hl, hlength⟩ := hfull
      obtain ⟨ls, rfl⟩ := List.head?_eq_some_iff.mp hl
      exact iff_of_false (joinUp_foldl_ne hlength ws)
        (not_not_intro (Or.inl ⟨rfl, l, hl, hlength⟩))
    · rw [List.foldl_cons, addMarked_eq hfull, List.map_cons, List.foldl_cons, ih,
        or_iff_right hfull]

/-- **Where marks tell.** Words with marks are set as they are without them just where no marked
word fits on the line of the words before it and leaves no room there. -/
theorem join_fillMarked_eq_iff (padding width : Nat) (ws : List (Text × Bool)) :
    join ['\n'] (fillMarked padding width ws) =
        join ['\n'] (fill padding width (ws.map Prod.fst)) ↔
      ¬ ∃ before v after l, ws = before ++ (v, true) :: after ∧
        (fill padding width (before.map Prod.fst)).getLast? = some l ∧
          l.length + 1 + v.length = width := by
  have h : join ['\n'] (fillMarked padding width ws) =
      join ['\n'] (fill padding width (ws.map Prod.fst)) ↔ ¬ FillsUp padding width [] ws :=
    joinUp_foldl_eq_iff [] ws
  rw [h, FillsUp]
  simp only [fill, List.getLast?_reverse, Option.mem_def, exists_and_left]

end Text

/-! ## Marked words on a sheet -/

namespace Sheet

variable {s : Sheet} {base lines : List Text} {v : Text}

/-- **A word with a mark.** The word, with a space at its end if it has a mark, and the space behind
it are set as if the marked word had been added to the lines.

**Proof sketch.** The word is set on a line of its own or behind the others, with the mark counted
to its length. If it has a mark the line ends in a space already, and the space behind the word is
dropped; otherwise it is set behind ink. -/
theorem Bears.word (h : s.Bears base lines) (hne : v ≠ []) (hink : v.isInk = true) (ends : Bool) :
    (s.word (v ++ Text.spaces ends.toNat)).space.Bears base
      (Text.addMarked s.padding s.width lines (v, ends)) := by
  obtain ⟨l, ls, hlines, hl, hline, hfinished⟩ :=
    h.exists_word hne hink (Text.spaces ends.toNat)
  rw [Text.length_spaces] at hlines
  rw [Text.addMarked, hlines]
  cases ends with
  | false =>
    simp only [Bool.toNat_false, Text.spaces, List.replicate_zero, List.append_nil]
      at hline hfinished ⊢
    exact (Ready.of_endsInInk hl hline hfinished).bears
  | true =>
    have hbears : (s.word (v ++ Text.spaces true.toNat)).Bears base (l :: ls) :=
      ⟨hl, Or.inl ⟨hfinished, hline⟩⟩
    rw [hbears.space]
    exact hbears

end Sheet

end Manpage
