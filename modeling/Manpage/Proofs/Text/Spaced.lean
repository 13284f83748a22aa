import Manpage.Proofs.Text.Shown

/-!
# Normal spacing

Two properties of texts that are set in lines. Within a line, blanks after the first ink are single
spaces. From line to line, empty ones stand between others, and how many of them stand in a row is
limited.

## Main definitions

* `Manpage.Text.IsEvenlySpaced` — a line in which blanks separate words.
* `Manpage.Separated` — lines with empty ones between them, so many in a row as a set allows.

## Main results

* `Manpage.Text.IsEvenlySpaced.append_ink`, `Manpage.Text.IsEvenlySpaced.append_space` — how such a
  line goes on.
* `Manpage.Separated.mem_of_run` — the empty lines in a row are as many as the set allows.
-/

namespace Manpage

variable {S : Nat → Prop}

namespace Text

variable {t w : Text}

/-! ## Blanks in a line -/

/-- A line in which every blank after the first ink is a single space, directly behind ink. -/
def IsEvenlySpaced (t : Text) : Prop :=
  ∀ (front : Text) (c : Char) (back : Text), t = front ++ c :: back → isSpace c = true →
    front.isBlank = true ∨
      (c = ' ' ∧ ∃ (before : Text) (b : Char), front = before ++ [b] ∧ isSpace b = false)

/-- A blank text is evenly spaced: before any character of it there are blanks only. -/
theorem IsEvenlySpaced.of_isBlank (h : t.isBlank = true) : t.IsEvenlySpaced := by
  rintro front c back rfl -
  rw [isBlank_append, Bool.and_eq_true] at h
  exact Or.inl h.1

/-- Ink may follow anywhere. A blank of the whole text is one of the text before the ink, with the
same text before it. -/
theorem IsEvenlySpaced.append_ink (h : t.IsEvenlySpaced) (hw : w.isInk = true) :
    (t ++ w).IsEvenlySpaced := by
  intro front c back heq hc
  rcases List.append_eq_append_iff.mp heq with ⟨as, -, has⟩ | ⟨as, rfl, has⟩
  · have hmem : c ∈ w := has ▸ List.mem_append_right as List.mem_cons_self
    exact Bool.noConfusion (hc.symm.trans (isInk_iff.mp hw c hmem))
  · cases as with
    | nil =>
      have hmem : c ∈ w := by
        rw [List.nil_append] at has
        exact has ▸ List.mem_cons_self
      exact Bool.noConfusion (hc.symm.trans (isInk_iff.mp hw c hmem))
    | cons a as =>
      obtain ⟨rfl, -⟩ := List.cons.inj has
      exact h front c as rfl hc

/-- A space may follow behind ink. The last character of the ink stands before it. -/
theorem IsEvenlySpaced.append_space (h : (t ++ w).IsEvenlySpaced) (hw : w.isInk = true)
    (hne : w ≠ []) : (t ++ w ++ [' ']).IsEvenlySpaced := by
  intro front c back heq hc
  rcases List.eq_nil_or_concat back with rfl | ⟨back, d, rfl⟩
  · obtain ⟨rfl, hspace⟩ := List.append_inj' heq rfl
    obtain ⟨rfl, -⟩ := List.cons.inj hspace
    obtain ⟨before, b, rfl⟩ := (List.eq_nil_or_concat w).resolve_left hne
    exact Or.inr ⟨rfl, t ++ before, b, by simp, isInk_iff.mp hw b (by simp)⟩
  · have hleft : t ++ w ++ [' '] = front ++ c :: back ++ [d] := by simpa using heq
    exact h front c back (List.append_inj' hleft rfl).1 hc

end Text

/-! ## Empty lines -/

variable {α β : Type} {l : List α} {ls rest : List (List α)}

/-- Lines that end in one that is not empty, and in which empty ones come one at a time or as many
in a row as a set allows. -/
inductive Separated (S : Nat → Prop) : List (List α) → Prop
  | nil : Separated S []
  | cons {l : List α} {rest : List (List α)} (k : Nat) (hk : k = 0 ∨ k = 1 ∨ S k) (hl : l ≠ [])
      (h : Separated S rest) : Separated S (List.replicate k [] ++ l :: rest)

namespace Separated

/-- Empty lines are empty, however many of them stand in a row. -/
theorem isEmpty_of_mem_replicate {k : Nat} : ∀ m ∈ List.replicate k ([] : List α),
    m.isEmpty = true := by
  intro m hm
  rw [List.eq_of_mem_replicate hm]
  rfl

/-- One more line that is not empty. -/
theorem cons_line (h : Separated S ls) (hl : l ≠ []) : Separated S (l :: ls) :=
  .cons 0 (Or.inl rfl) hl h

/-- Lines stay separated under a map that keeps empty ones apart from others. -/
theorem map {f : List α → List β} (h : Separated S ls) (hnil : f [] = [])
    (hf : ∀ l ∈ ls, l ≠ [] → f l ≠ []) : Separated S (ls.map f) := by
  induction h with
  | nil => exact .nil
  | @cons l rest k hk hl _ ih =>
    rw [List.map_append, List.map_replicate, hnil, List.map_cons]
    refine .cons k hk (hf l (by simp) hl) (ih fun m hm => hf m ?_)
    exact List.mem_append_right _ (List.mem_cons_of_mem l hm)

/-- Without the empty lines at the start. -/
theorem dropWhile_isEmpty (h : Separated S ls) : Separated S (ls.dropWhile List.isEmpty) := by
  cases h with
  | nil => exact .nil
  | @cons l rest k _ hl h =>
    rw [List.dropWhile_append_of_pos isEmpty_of_mem_replicate,
      List.dropWhile_cons_of_neg (by simpa using hl)]
    exact h.cons_line hl

/-- The last line is not empty. By induction on the lines: empty ones stand before lines that are
not. -/
theorem getLast?_ne (h : Separated S ls) : ls.getLast? ≠ some [] := by
  induction h with
  | nil => simp
  | @cons l rest k _ hl _ ih =>
    rw [List.getLast?_append, List.getLast?_cons]
    cases hlast : rest.getLast? with
    | none => simpa using hl
    | some m =>
      rw [hlast] at ih
      simpa using ih

/-- So many empty lines are the first ones of a list. -/
theorem takeWhile_isEmpty_replicate (k : Nat) (h : ls.head? ≠ some []) :
    (List.replicate k [] ++ ls).takeWhile List.isEmpty = List.replicate k [] := by
  rw [List.takeWhile_append_of_pos isEmpty_of_mem_replicate]
  cases ls with
  | nil => simp
  | cons m ls =>
    have hm : ¬ m.isEmpty = true := by simpa using h
    rw [List.takeWhile_cons_of_neg hm, List.append_nil]

/-- **Empty lines in a row.** As many as stand in a row, with others or none before and behind
them, are allowed.

**Proof sketch.** Induction on the lines. The row is the first one, and then its number is told by
how far the empty lines go, or it lies behind the first line that is not empty. -/
theorem mem_of_run (h : Separated S ls) {front back : List (List α)} {k : Nat}
    (heq : ls = front ++ (List.replicate k [] ++ back)) (hk : 0 < k)
    (hfront : front.getLast? ≠ some []) (hback : back.head? ≠ some []) : k = 1 ∨ S k := by
  induction h generalizing front with
  | nil =>
    have hlength := congrArg List.length heq
    simp only [List.length_nil, List.length_append, List.length_replicate] at hlength
    omega
  | @cons l rest j hj hl _ ih =>
    rcases List.append_eq_append_iff.mp heq with ⟨as, rfl, has⟩ | ⟨as, hleft, has⟩
    · cases as with
      | nil =>
        obtain ⟨k, rfl⟩ : ∃ i, k = i + 1 := ⟨k - 1, by omega⟩
        rw [List.nil_append, List.replicate_succ, List.cons_append] at has
        exact absurd (List.cons.inj has).1 hl
      | cons a as =>
        obtain ⟨rfl, hrest⟩ := List.cons.inj has
        refine ih hrest fun hlast => hfront ?_
        rw [List.getLast?_append, List.getLast?_cons, hlast]
        rfl
    · -- nothing but empty lines can stand before the row, so nothing does
      have hnil : front = [] := by
        rcases List.eq_nil_or_concat front with hnil | ⟨before, m, rfl⟩
        · exact hnil
        · have hm : m ∈ List.replicate j ([] : List α) := hleft ▸ by simp
          exact absurd (by simp [List.eq_of_mem_replicate hm]) hfront
      subst hnil
      rw [List.nil_append] at heq
      have hrow := congrArg (List.takeWhile List.isEmpty) heq
      rw [takeWhile_isEmpty_replicate j (by simpa using hl),
        takeWhile_isEmpty_replicate k hback] at hrow
      obtain rfl : j = k := by simpa using congrArg List.length hrow
      rcases hj with hj | hj
      · omega
      · exact hj

end Separated

end Manpage
