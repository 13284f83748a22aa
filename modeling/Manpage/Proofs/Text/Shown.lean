import Manpage.Proofs.Text.Control

/-!
# Texts that are shown among blanks

Whatever else happens to a text on its way to the terminal, it is shown once, in some face, and
between any two texts there are blanks at most. What a shown text consists of can be got back from
it, by erasing the control sequences and the blanks.

## Main definitions

* `Manpage.Text.ink` — the characters of a text that are not blanks.
* `Manpage.Text.Shows` — a text that shows others, in order, with blanks between them.
* `Manpage.Text.Joins` — a text that shows others with nothing between them.

## Main results

* `Manpage.Text.Shows.ink_eraseControls` — the texts that are shown are got back.
* `Manpage.Text.Shows.stripRight` — the blanks at the end show nothing.
* `Manpage.Text.Shows.exists_joins` — one text among others is shown in one piece.
-/

namespace Manpage.Text

variable {t u v b : Text} {ts us : List Text}

/-! ## The ink of a text -/

/-- The characters of a text that are not blanks. -/
def ink (t : Text) : Text :=
  t.filter fun c => !isSpace c

/-- The ink of two texts is that of the first and that of the second. -/
@[simp] theorem ink_append (t u : Text) : (t ++ u).ink = t.ink ++ u.ink :=
  List.filter_append t u

/-- A blank text has no ink. -/
theorem ink_of_isBlank (h : t.isBlank = true) : t.ink = [] := by
  rw [ink, List.filter_eq_nil_iff]
  intro c hc
  simp [isBlank_iff.mp h c hc]

/-- A text of ink is its own ink. -/
theorem ink_of_isInk (h : t.isInk = true) : t.ink = t := by
  rw [ink, List.filter_eq_self]
  intro c hc
  simp [isInk_iff.mp h c hc]

/-- No control sequence begins with a blank. -/
theorem escape_not_mem_of_isBlank (h : b.isBlank = true) : '\x1b' ∉ b := by
  intro hmem
  exact absurd (isBlank_iff.mp h _ hmem) (by decide)

/-! ## Shown texts -/

/-- A text that shows others, in order and each in some face, with nothing but blanks before,
between and after them. -/
inductive Shows : List Text → Text → Prop
  | nil : Shows [] []
  | blanks {blank rest : Text} {ts : List Text} (hblank : blank.isBlank = true)
      (h : Shows ts rest) : Shows ts (blank ++ rest)
  | cons {t rest : Text} {ts : List Text} (face : Option Face) (h : Shows ts rest) :
      Shows (t :: ts) (showIn face t ++ rest)

namespace Shows

/-- A blank text shows nothing. -/
theorem of_isBlank (hb : b.isBlank = true) : Shows [] b := by
  simpa using blanks hb nil

/-- A text in some face shows itself. -/
theorem single (face : Option Face) (t : Text) : Shows [t] (showIn face t) := by
  simpa using cons face nil

/-- What two texts show together is what the first shows and what the second shows. By induction on
the first. -/
theorem append (h : Shows ts u) (h' : Shows us v) : Shows (ts ++ us) (u ++ v) := by
  induction h with
  | nil => exact h'
  | blanks hb _ ih =>
    rw [List.append_assoc]
    exact blanks hb ih
  | cons face _ ih =>
    rw [List.append_assoc]
    exact cons face ih

/-- The texts that are shown are got back by erasing the control sequences and the blanks.

**Proof sketch.** By induction on what is shown: blanks have no ink, and of a text in a face the
control sequences around it are erased, which leaves its characters. -/
theorem ink_eraseControls (h : Shows ts u) (hts : ∀ t ∈ ts, t.isInk = true ∧ '\x1b' ∉ t) :
    (eraseControls u).ink = ts.flatten := by
  induction h with
  | nil =>
    rw [eraseControls_nil]
    rfl
  | blanks hb _ ih =>
    rw [eraseControls_append (escape_not_mem_of_isBlank hb), ink_append, ink_of_isBlank hb,
      List.nil_append]
    exact ih hts
  | cons face _ ih =>
    obtain ⟨hink, hescape⟩ := hts _ List.mem_cons_self
    rw [eraseControls_showIn face hescape, ink_append, ink_of_isInk hink, List.flatten_cons,
      ih fun s hs => hts s (List.mem_cons_of_mem _ hs)]

/-! ## Blanks at the end -/

/-- What ink is shown as ends in no blank. Its last character is of the text, or of the sequence
that resets the face. -/
theorem stripRight_append_showIn (face : Option Face) (hink : t.isInk = true) (hne : t ≠ [])
    (u : Text) : (u ++ showIn face t).stripRight = u ++ showIn face t := by
  unfold showIn
  cases face with
  | none => exact stripRight_append_of_isInk u hink hne
  | some f =>
    have hend := stripRight_append_of_isInk (u ++ (f.start ++ t)) (w := Face.reset) (by decide)
      (by decide)
    simpa only [List.append_assoc] using hend

/-- What follows is stripped by itself. -/
theorem stripRight_append_showIn_append (face : Option Face) (hink : t.isInk = true) (hne : t ≠ [])
    (u b : Text) : (u ++ showIn face t ++ b).stripRight = u ++ showIn face t ++ b.stripRight := by
  by_cases hb : b.isBlank = true
  · rw [stripRight_append_of_isBlank _ hb, stripRight_append_showIn face hink hne,
      stripRight_eq_nil_iff.mpr hb, List.append_nil]
  · rw [stripRight_append_of_not_isBlank _ hb]

/-- A text of ink is not blank in any face: its characters are shown, besides those that change the
face. -/
theorem showIn_not_isBlank (face : Option Face) (hink : t.isInk = true) (hne : t ≠ []) :
    ¬ (showIn face t).isBlank = true := by
  intro hblank
  have hstrip := stripRight_append_showIn face hink hne []
  rw [List.nil_append, stripRight_eq_nil_iff.mpr hblank] at hstrip
  cases face with
  | none => exact hne hstrip.symm
  | some f => cases f <;> exact absurd hstrip (by simp [showIn, Face.start])

/-- Blanks show nothing. Any ink that is shown would not be blank. -/
theorem eq_nil_of_isBlank (h : Shows ts u) (hts : ∀ t ∈ ts, t.isInk = true ∧ t ≠ [])
    (hu : u.isBlank = true) : ts = [] := by
  induction h with
  | nil => rfl
  | blanks _ _ ih =>
    rw [isBlank_append, Bool.and_eq_true] at hu
    exact ih hts hu.2
  | cons face _ _ =>
    obtain ⟨hink, hne⟩ := hts _ List.mem_cons_self
    rw [isBlank_append, Bool.and_eq_true] at hu
    exact absurd hu.1 (showIn_not_isBlank face hink hne)

/-- The blanks at the end show nothing.

**Proof sketch.** By induction on what is shown, with two cases: where the rest is blank no text is
left in it, and the text before it ends in ink or in the sequence that ends a face; otherwise the
stripping is left to the rest. -/
theorem stripRight (h : Shows ts u) (hts : ∀ t ∈ ts, t.isInk = true ∧ t ≠ []) :
    Shows ts u.stripRight := by
  by_cases hu : u.isBlank = true
  · rw [h.eq_nil_of_isBlank hts hu, stripRight_eq_nil_iff.mpr hu]
    exact nil
  induction h with
  | nil => exact absurd rfl hu
  | @blanks b u ts hb h ih =>
    have hrest : ¬ u.isBlank = true := by
      intro hrest
      rw [isBlank_append, hb, hrest] at hu
      exact hu rfl
    rw [stripRight_append_of_not_isBlank b hrest]
    exact blanks hb (ih hts hrest)
  | @cons t u ts face h ih =>
    obtain ⟨hink, hne⟩ := hts t List.mem_cons_self
    have hts' : ∀ s ∈ ts, s.isInk = true ∧ s ≠ [] := fun s hs => hts s (List.mem_cons_of_mem t hs)
    by_cases hrest : u.isBlank = true
    · have hend := stripRight_append_showIn face hink hne []
      rw [List.nil_append] at hend
      rw [h.eq_nil_of_isBlank hts' hrest, stripRight_append_of_isBlank _ hrest, hend]
      exact single face t
    · rw [stripRight_append_of_not_isBlank _ hrest]
      exact cons face (ih hts' hrest)

end Shows

/-! ## Texts with nothing between them -/

/-- A text that shows others, in order and each in some face, with nothing between them. -/
inductive Joins : List Text → Text → Prop
  | nil : Joins [] []
  | cons {t rest : Text} {ts : List Text} (face : Option Face) (h : Joins ts rest) :
      Joins (t :: ts) (showIn face t ++ rest)

/-- Texts that join two rows of texts, one behind the other, join both. -/
theorem Joins.append (h : Joins ts u) (h' : Joins us v) : Joins (ts ++ us) (u ++ v) := by
  induction h with
  | nil => exact h'
  | cons face _ ih =>
    rw [List.append_assoc]
    exact cons face ih

/-- A text in some face joins itself. -/
theorem Joins.single (face : Option Face) (t : Text) : Joins [t] (showIn face t) := by
  simpa using cons face nil

/-- A text keeps its characters in every face. -/
theorem mem_showIn (face : Option Face) {c : Char} (hc : c ∈ t) : c ∈ showIn face t := by
  cases face with
  | none => exact hc
  | some f => exact List.mem_append_left _ (List.mem_append_right _ hc)

/-- The characters of the texts are shown. -/
theorem Joins.mem (h : Joins ts u) (ht : t ∈ ts) {c : Char} (hc : c ∈ t) : c ∈ u := by
  induction h with
  | nil => exact absurd ht List.not_mem_nil
  | cons face _ ih =>
    rcases List.mem_cons.mp ht with rfl | ht
    · exact List.mem_append_left _ (mem_showIn face hc)
    · exact List.mem_append_right _ (ih ht)

/-- A text of ink holds no line feed, which is a blank. -/
theorem newline_not_mem_of_isInk (ht : t.isInk = true) : '\n' ∉ t :=
  fun hmem => absurd (isInk_iff.mp ht _ hmem) (by decide)

/-- A text is shown without a line feed of its own. -/
theorem newline_not_mem_showIn (face : Option Face) (ht : '\n' ∉ t) : '\n' ∉ showIn face t := by
  cases face with
  | none => exact ht
  | some f => cases f <;> simp [showIn, Face.start, Face.reset, ht]

/-- Ink that is shown with nothing between stands on one line. -/
theorem Joins.newline_not_mem (h : Joins ts u) (hts : ∀ t ∈ ts, t.isInk = true) : '\n' ∉ u := by
  induction h with
  | nil => exact List.not_mem_nil
  | cons face _ ih =>
    rw [List.mem_append, not_or]
    exact ⟨newline_not_mem_showIn face (newline_not_mem_of_isInk (hts _ List.mem_cons_self)),
      ih fun t ht => hts t (List.mem_cons_of_mem _ ht)⟩

/-! ## Parts of shown texts -/

/-- A text that shows others in two parts falls into two parts.

**Proof sketch.** By induction on what is shown, with the first part general. Blanks go to the first
part, and where that is used up all that follows goes to the second. -/
theorem Shows.exists_append (h : Shows (ts ++ us) u) :
    ∃ a b : Text, u = a ++ b ∧ Shows ts a ∧ Shows us b := by
  generalize heq : ts ++ us = vs at h
  induction h generalizing ts with
  | nil =>
    obtain ⟨rfl, rfl⟩ := List.append_eq_nil_iff.mp heq
    exact ⟨[], [], rfl, nil, nil⟩
  | blanks hb _ ih =>
    obtain ⟨a, b, hab, ha, hb'⟩ := ih heq
    exact ⟨_ ++ a, b, by rw [hab, List.append_assoc], blanks hb ha, hb'⟩
  | cons face h ih =>
    cases ts with
    | nil =>
      obtain rfl : us = _ := heq
      exact ⟨[], _, rfl, nil, cons face h⟩
    | cons t ts =>
      obtain ⟨rfl, hrest⟩ := List.cons.inj heq
      obtain ⟨a, b, hab, ha, hb⟩ := ih hrest
      exact ⟨_ ++ a, b, by rw [hab, List.append_assoc], cons face ha, hb⟩

/-- Before the first text that is shown there are blanks. By induction: blanks are gathered until
the text comes, in its face. -/
theorem Shows.exists_cons (h : Shows (t :: ts) u) :
    ∃ (a : Text) (face : Option Face) (b : Text), u = a ++ (showIn face t ++ b) ∧
      a.isBlank = true ∧ Shows ts b := by
  generalize heq : t :: ts = vs at h
  induction h with
  | nil => exact absurd heq (by simp)
  | @blanks blank rest _ hb _ ih =>
    obtain ⟨a, face, b, hab, ha, hb'⟩ := ih heq
    refine ⟨blank ++ a, face, b, by rw [hab, List.append_assoc], ?_, hb'⟩
    rw [isBlank_append, hb, ha]
    rfl
  | @cons _ rest _ face h _ =>
    obtain ⟨rfl, rfl⟩ := List.cons.inj heq
    exact ⟨[], face, rest, rfl, rfl, h⟩

/-- One text among others is shown in one piece. Blanks before it are shown with the texts before
it. -/
theorem Shows.exists_joins {vs : List Text} (h : Shows (ts ++ (us ++ vs)) u)
    (hus : us.length ≤ 1) :
    ∃ a s b : Text, u = a ++ (s ++ b) ∧ Shows ts a ∧ Joins us s ∧ Shows vs b := by
  obtain ⟨a, u, rfl, ha, hu⟩ := h.exists_append
  match us, hus with
  | [], _ => exact ⟨a, [], u, rfl, ha, .nil, hu⟩
  | [t], _ =>
    obtain ⟨c, face, b, rfl, hc, hb⟩ := hu.exists_cons
    refine ⟨a ++ c, showIn face t, b, by rw [List.append_assoc], ?_, .single face t, hb⟩
    simpa using ha.append (.of_isBlank hc)

end Manpage.Text
