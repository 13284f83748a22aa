import Manpage.Proofs.Text.Lines

/-!
# What ends a line

What stands before a line of a text ends as many lines as there are before that one. Editors know
fewer line ends than there are: line feeds, carriage returns, and the two of them as one. They
number lines as this library does as far as no other character ends a line.

## Main definitions

* `Manpage.Text.beforeLine` — what stands before a line of a text.
* `Manpage.Text.protocolEnds` — the line ends of a text that an editor counts.
* `Manpage.isOtherEnd` — the line ends that it does not count.

## Main results

* `Manpage.Text.exists_eq_beforeLine_append` — a text around one of its lines.
* `Manpage.Text.ends_beforeLine` — the line ends before a line.
-/

namespace Manpage

/-- A line end that an editor does not count. -/
def isOtherEnd (c : Char) : Bool :=
  isLineEnd c && c != '\n' && c != '\r'

namespace Text

variable {t line before : Text} {c : Char} {k : Nat}

/-- What stands before the line of a number, counted from zero, with the ends of the lines there. -/
def beforeLine : Nat → Text → Text
  | 0, _ => []
  | _ + 1, [] => []
  | k + 1, '\r' :: '\n' :: t => '\r' :: '\n' :: beforeLine k t
  | k + 1, c :: t => c :: if isLineEnd c then beforeLine k t else beforeLine (k + 1) t

/-- The line ends that an editor counts: line feeds and carriage returns, a carriage return with a
line feed behind it as one. -/
def protocolEnds : Text → Nat
  | [] => 0
  | '\r' :: '\n' :: t => protocolEnds t + 1
  | c :: t => (if c = '\n' ∨ c = '\r' then 1 else 0) + protocolEnds t

/-! ## Lines one by one -/

/-- A text that has a line of some number: the line comes first, or something else does, the end of
a line or another character. -/
theorem splitLines_induction {motive : Nat → Text → Prop}
    (zero : ∀ t, (splitLines t)[0]? = some line → motive 0 t)
    (pair : ∀ k t, motive k t → motive (k + 1) ('\r' :: '\n' :: t))
    (ended : ∀ k c t, isLineEnd c = true → (∀ u, c = '\r' → t = '\n' :: u → False) →
      motive k t → motive (k + 1) (c :: t))
    (other : ∀ k c t, isLineEnd c = false → motive (k + 1) t → motive (k + 1) (c :: t))
    (h : (splitLines t)[k]? = some line) : motive k t := by
  induction t using splitLines.induct generalizing k with
  | case1 => exact absurd h (by simp [splitLines])
  | case2 t ih =>
    cases k with
    | zero => exact zero _ h
    | succ k => exact pair k t (ih (by simpa [splitLines] using h))
  | case3 c t hcr hend ih =>
    cases k with
    | zero => exact zero _ h
    | succ k =>
      rw [splitLines, if_pos hend] at h
      · exact ended k c t hend hcr (ih (by simpa using h))
      · exact hcr
  | case4 c t hcr hend hnil ih =>
    cases k with
    | zero => exact zero _ h
    | succ k =>
      rw [splitLines, if_neg hend, hnil] at h
      · exact absurd h (by simp)
      · exact hcr
  | case5 c t hcr hend first more hcons ih =>
    cases k with
    | zero => exact zero _ h
    | succ k =>
      rw [splitLines, if_neg hend, hcons] at h
      · exact other k c t (by simpa using hend) (ih (by simpa [hcons] using h))
      · exact hcr

/-- The first line stands at the beginning. By induction over the text as it is split. -/
theorem exists_eq_append_of_first (h : (splitLines t)[0]? = some line) :
    ∃ after, t = line ++ after := by
  induction t using splitLines.induct generalizing line with
  | case1 => exact absurd h (by simp [splitLines])
  | case2 t ih =>
    obtain rfl : [] = line := by simpa [splitLines] using h
    exact ⟨_, rfl⟩
  | case3 c t hcr hend ih =>
    rw [splitLines, if_pos hend] at h
    · obtain rfl : [] = line := by simpa using h
      exact ⟨_, rfl⟩
    · exact hcr
  | case4 c t hcr hend hnil ih =>
    rw [splitLines, if_neg hend, hnil] at h
    · obtain rfl : [c] = line := by simpa using h
      exact ⟨t, rfl⟩
    · exact hcr
  | case5 c t hcr hend first more hcons ih =>
    rw [splitLines, if_neg hend, hcons] at h
    · obtain rfl : c :: first = line := by simpa using h
      obtain ⟨after, ht⟩ := ih (by simp [hcons] : (splitLines t)[0]? = some first)
      exact ⟨after, congrArg (c :: ·) ht⟩
    · exact hcr

/-! ## What stands before a line -/

/-- Nothing stands before the first line. -/
theorem beforeLine_zero (t : Text) : beforeLine 0 t = [] := by
  rw [beforeLine]

/-- A carriage return with a line feed behind it stands before the lines after it, and counts as one
end. -/
theorem beforeLine_pair (k : Nat) (t : Text) :
    beforeLine (k + 1) ('\r' :: '\n' :: t) = '\r' :: '\n' :: beforeLine k t := by
  rw [beforeLine]

/-- A single character that ends a line stands before the lines after it. -/
theorem beforeLine_ended (k : Nat) (hend : isLineEnd c = true)
    (hcr : ∀ u, c = '\r' → t = '\n' :: u → False) :
    beforeLine (k + 1) (c :: t) = c :: beforeLine k t := by
  rw [beforeLine, if_pos hend]
  exact hcr

/-- A character that ends no line belongs to the first line, and stands before all others. -/
theorem beforeLine_other (k : Nat) (hc : isLineEnd c = false) :
    beforeLine (k + 1) (c :: t) = c :: beforeLine (k + 1) t := by
  rw [beforeLine, if_neg (by simp [hc])]
  rintro u rfl -
  exact absurd hc (by decide)

/-- **A text around one of its lines.**

**Proof sketch.** By induction over the lines before it, with a case for each way that the text goes
on: the first line, a pair of line ends, a single one, any other character. Each case puts the same
characters before both sides. -/
theorem exists_eq_beforeLine_append (h : (splitLines t)[k]? = some line) :
    ∃ after, t = beforeLine k t ++ line ++ after := by
  refine splitLines_induction (motive := fun k t => ∃ after, t = beforeLine k t ++ line ++ after)
    (fun t h => ?_) (fun k t ih => ?_) (fun k c t hend hcr ih => ?_) (fun k c t hc ih => ?_) h
  · rw [beforeLine_zero]
    exact exists_eq_append_of_first h
  · obtain ⟨after, ht⟩ := ih
    rw [beforeLine_pair]
    exact ⟨after, congrArg ('\r' :: '\n' :: ·) ht⟩
  · obtain ⟨after, ht⟩ := ih
    rw [beforeLine_ended k hend hcr]
    exact ⟨after, congrArg (c :: ·) ht⟩
  · obtain ⟨after, ht⟩ := ih
    rw [beforeLine_other k hc]
    exact ⟨after, congrArg (c :: ·) ht⟩

/-- A line is no longer than its text. -/
theorem length_le_of_getElem?_splitLines (h : (splitLines t)[k]? = some line) :
    line.length ≤ t.length := by
  obtain ⟨after, ht⟩ := exists_eq_beforeLine_append h
  rw [ht, List.length_append, List.length_append]
  omega

/-! ## Line ends -/

/-- The ends that an editor counts in a text are those behind its first character and perhaps that
character, unless it is half of a pair. -/
theorem protocolEnds_cons (hcr : ∀ u, c = '\r' → t = '\n' :: u → False) :
    protocolEnds (c :: t) = (if c = '\n' ∨ c = '\r' then 1 else 0) + protocolEnds t := by
  rw [protocolEnds]
  exact hcr

/-- What stands before a line is the beginning of the text. By induction over the text as it is
counted, a return and a line feed together. -/
theorem beforeLine_prefix (k : Nat) (t : Text) : beforeLine k t <+: t := by
  fun_induction beforeLine k t with
  | case1 => exact List.nil_prefix
  | case2 => exact List.nil_prefix
  | case3 k t ih => exact List.cons_prefix_cons.mpr ⟨rfl, List.cons_prefix_cons.mpr ⟨rfl, ih⟩⟩
  | case4 k c t hcr ended other =>
    refine List.cons_prefix_cons.mpr ⟨rfl, ?_⟩
    split
    · exact ended
    · exact other

/-- Every line end is counted by an editor, or is one of the others. The two kinds exclude one
another. -/
theorem ends_add (c : Char) :
    (if c = '\n' ∨ c = '\r' then 1 else 0) + (if isOtherEnd c then 1 else 0) =
      if isLineEnd c then 1 else 0 := by
  by_cases hc : c = '\n' ∨ c = '\r'
  · rcases hc with rfl | rfl
    · rfl
    · rfl
  · obtain ⟨hfeed, hreturn⟩ := not_or.mp hc
    simp [isOtherEnd, hfeed, hreturn]

/-- One character more, unless it makes a pair with the next. -/
theorem ends_cons (hcr : ∀ u, c = '\r' → t = '\n' :: u → False) :
    protocolEnds (c :: t) + (c :: t).countP isOtherEnd =
      protocolEnds t + t.countP isOtherEnd + if isLineEnd c then 1 else 0 := by
  rw [protocolEnds_cons hcr, List.countP_cons, ← ends_add c]
  omega

/-- **The line ends before a line**: as many as there are lines before it, those that an editor
counts and the others.

**Proof sketch.** By the same induction. A pair of line ends counts once for both; a single one
counts for just one of the two, as it is one for an editor or not. -/
theorem ends_beforeLine (h : (splitLines t)[k]? = some line) :
    protocolEnds (beforeLine k t) + (beforeLine k t).countP isOtherEnd = k := by
  refine splitLines_induction
    (motive := fun k t => protocolEnds (beforeLine k t) + (beforeLine k t).countP isOtherEnd = k)
    (fun t _ => ?_) (fun k t ih => ?_) (fun k c t hend hcr ih => ?_) (fun k c t hc ih => ?_) h
  · rw [beforeLine_zero]
    rfl
  · have hpair : ('\r' :: '\n' :: beforeLine k t).countP isOtherEnd =
        (beforeLine k t).countP isOtherEnd := rfl
    rw [beforeLine_pair, protocolEnds, hpair]
    omega
  · have hcr' : ∀ u, c = '\r' → beforeLine k t = '\n' :: u → False := by
      intro u hc hbefore
      obtain ⟨rest, hrest⟩ := beforeLine_prefix k t
      rw [hbefore] at hrest
      exact hcr _ hc hrest.symm
    rw [beforeLine_ended k hend hcr, ends_cons hcr', if_pos hend, ih]
  · have hcr : ∀ u, c = '\r' → beforeLine (k + 1) t = '\n' :: u → False := by
      rintro u rfl -
      exact absurd hc (by decide)
    rw [beforeLine_other k hc, ends_cons hcr, if_neg (by simp [hc]), ih, Nat.add_zero]

/-- A text that ends no line adds nothing to the line ends of another.

**Proof sketch.** By induction over the first text as its line ends are counted. A carriage return
at its end stays alone, as the second text begins with no line feed. -/
theorem protocolEnds_append (t : Text) (h : ∀ c ∈ before, isLineEnd c = false) :
    protocolEnds (t ++ before) = protocolEnds t := by
  have hplain : ∀ c ∈ before, ¬ (c = '\n' ∨ c = '\r') := by
    rintro c hc (rfl | rfl)
    · exact absurd (h _ hc) (by decide)
    · exact absurd (h _ hc) (by decide)
  have hbefore : protocolEnds before = 0 := by
    induction before with
    | nil => rfl
    | cons c before ih =>
      obtain ⟨hc, hmore⟩ := List.forall_mem_cons.mp hplain
      rw [protocolEnds_cons fun u hcr _ => hc (Or.inr hcr), if_neg hc,
        ih (fun d hd => h d (List.mem_cons_of_mem c hd)) hmore]
  fun_induction protocolEnds t with
  | case1 => exact hbefore
  | case2 t ih =>
    rw [List.cons_append, List.cons_append, protocolEnds, ih]
  | case3 c t hcr ih =>
    have hcr' : ∀ u, c = '\r' → t ++ before = '\n' :: u → False := by
      intro u hc heq
      cases t with
      | nil =>
        have hmem : '\n' ∈ before := by
          rw [List.nil_append] at heq
          simp [heq]
        exact hplain _ hmem (Or.inl rfl)
      | cons d t =>
        obtain ⟨rfl, -⟩ := List.cons.inj heq
        exact hcr t hc rfl
    rw [List.cons_append, protocolEnds_cons hcr', ih]

/-- In a text without line ends there are none that an editor would not know. -/
theorem countP_isOtherEnd_eq_zero (h : ∀ c ∈ before, isLineEnd c = false) :
    before.countP isOtherEnd = 0 :=
  List.countP_eq_zero.mpr fun c hc => by simp [isOtherEnd, h c hc]

end Text

end Manpage
