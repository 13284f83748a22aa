import Manpage.Text.Basic
import Mathlib.Data.List.DropRight
import Mathlib.Tactic.Lemma

/-!
# Blank texts and texts of ink

Every text that is put on a page is of one sort: all blanks, or no blanks at all. This file has
the second sort, beside `Manpage.Text.isBlank`, and what stripping the right end does to texts
that are put together from the two.

## Main definitions

* `Manpage.Text.isInk` — a text without blanks.

## Main results

* `Manpage.Text.stripRight_append_of_isBlank`, `Manpage.Text.stripRight_append_of_isInk` — blanks
  at the end are cut off, and what ends in ink is kept.
* `Manpage.Text.stripRight_eq_nil_iff` — nothing is left of blank texts only.
-/

namespace Manpage.Text

/-- A text without blanks; the empty text is one. -/
def isInk (t : Text) : Bool :=
  t.all fun c => !isSpace c

variable {s t w : Text}

/-! ## The two sorts of texts -/

/-- The empty text is blank. -/
@[simp] theorem isBlank_nil : isBlank [] = true := rfl

/-- The empty text is ink as well. -/
@[simp] theorem isInk_nil : isInk [] = true := rfl

/-- A text is blank if its first character is a blank and the others are. -/
@[simp] theorem isBlank_cons (c : Char) (t : Text) :
    isBlank (c :: t) = (isSpace c && isBlank t) := rfl

/-- A text is ink if its first character is no blank and the others are none. -/
@[simp] theorem isInk_cons (c : Char) (t : Text) : isInk (c :: t) = (!isSpace c && isInk t) := rfl

/-- Two texts are blank together if each of them is. -/
@[simp] theorem isBlank_append (s t : Text) : isBlank (s ++ t) = (isBlank s && isBlank t) := by
  simp [isBlank]

/-- Two texts are ink together if each of them is. -/
@[simp] theorem isInk_append (s t : Text) : isInk (s ++ t) = (isInk s && isInk t) := by
  simp [isInk]

/-- A text is blank just if all its characters are. -/
theorem isBlank_iff : isBlank t = true ↔ ∀ c ∈ t, isSpace c = true := by
  simp [isBlank]

/-- A text is ink just if none of its characters is a blank. -/
theorem isInk_iff : isInk t = true ↔ ∀ c ∈ t, isSpace c = false := by
  simp [isInk]

/-- Spaces are blank, however many there are. -/
@[simp] theorem isBlank_spaces (n : Nat) : (spaces n).isBlank = true := by
  rw [isBlank_iff]
  intro c hc
  obtain rfl := List.eq_of_mem_replicate hc
  rfl

/-- So many spaces have so many characters. -/
@[simp] theorem length_spaces (n : Nat) : (spaces n).length = n := by
  simp [spaces]

/-- Only the empty text is of both sorts. -/
theorem isBlank_eq_false_of_isInk (hw : w.isInk = true) (hne : w ≠ []) : w.isBlank = false := by
  cases w with
  | nil => exact absurd rfl hne
  | cons c t =>
    simp only [isInk_cons, Bool.and_eq_true, Bool.not_eq_true'] at hw
    simp [hw.1]

/-- No character of ink ends a line. -/
theorem isLineEnd_of_isInk (hw : w.isInk = true) : ∀ c ∈ w, isLineEnd c = false := by
  intro c hc
  have hink : isSpace c = false := isInk_iff.mp hw c hc
  by_contra hend
  rw [Bool.not_eq_false] at hend
  rw [isSpace_of_isLineEnd hend] at hink
  exact Bool.noConfusion hink

/-- Ink is no line feed. -/
theorem ne_newline_of_isInk (hw : w.isInk = true) : w ≠ ['\n'] := by
  rintro rfl
  exact absurd hw (by decide)

/-! ## Blanks at the end -/

/-- Stripping the right end is dropping blanks from there, of which the library of lists knows more.
-/
theorem stripRight_eq_rdropWhile (t : Text) : t.stripRight = t.rdropWhile isSpace := rfl

/-- Blanks at the end are cut off. -/
theorem stripRight_append_of_isBlank (t : Text) (hs : s.isBlank = true) :
    (t ++ s).stripRight = t.stripRight := by
  have h : ∀ c ∈ s.reverse, isSpace c = true := by
    intro c hc
    exact isBlank_iff.mp hs c (List.mem_reverse.mp hc)
  unfold stripRight
  rw [List.reverse_append, List.dropWhile_append_of_pos h]

/-- What ends in ink is kept whole. -/
theorem stripRight_append_of_isInk (t : Text) (hw : w.isInk = true) (hne : w ≠ []) :
    (t ++ w).stripRight = t ++ w := by
  rw [stripRight_eq_rdropWhile, List.rdropWhile_eq_self_iff]
  intro h
  rw [List.getLast_append_of_ne_nil _ hne]
  simp [isInk_iff.mp hw _ (List.getLast_mem hne)]

/-- Nothing is left of blank texts, and of no others. -/
theorem stripRight_eq_nil_iff : t.stripRight = [] ↔ t.isBlank = true := by
  rw [stripRight_eq_rdropWhile, List.rdropWhile_eq_nil_iff, isBlank_iff]

/-- Nothing is cut off before a text that is not blank. Stripping stops at a character of that text.
-/
theorem stripRight_append_of_not_isBlank (t : Text) (hs : ¬ s.isBlank = true) :
    (t ++ s).stripRight = t ++ s.stripRight := by
  have hne : s.reverse.dropWhile isSpace ≠ [] := by
    intro hnil
    apply hs
    rw [← stripRight_eq_nil_iff, stripRight, hnil, List.reverse_nil]
  have hempty : ¬ (s.reverse.dropWhile isSpace).isEmpty = true := by
    simpa using hne
  unfold stripRight
  rw [List.reverse_append, List.dropWhile_append, if_neg hempty, List.reverse_append,
    List.reverse_reverse]

/-- Stripping twice is stripping once. -/
@[simp] theorem stripRight_stripRight (t : Text) : t.stripRight.stripRight = t.stripRight :=
  List.rdropWhile_idempotent isSpace t

/-- Nothing is stripped from the empty text. -/
@[simp] theorem stripRight_nil : stripRight [] = [] := rfl

/-- A text of ink has nothing to be cut off. -/
theorem stripRight_of_isInk (hw : w.isInk = true) : w.stripRight = w := by
  rcases eq_or_ne w [] with rfl | hne
  · rfl
  · simpa using stripRight_append_of_isInk [] hw hne

/-- A text does not grow by being stripped. -/
theorem length_stripRight_le (t : Text) : t.stripRight.length ≤ t.length := by
  rw [stripRight_eq_rdropWhile]
  exact (List.rdropWhile_prefix isSpace t).length_le

end Manpage.Text
