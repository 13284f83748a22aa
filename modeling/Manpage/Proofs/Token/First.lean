import Manpage.Proofs.Token.Place

/-!
# The first token of a line

The first token of a line starts it, and no other does. On a line of text, it is neither the name of
a macro nor the token of an empty line.

## Main results

* `Manpage.Token.startsLine_of_ofLine_eq_cons` — the first token and the others.
* `Manpage.Token.exists_ofLine_eq_cons` — the first token of a line of text.
-/

namespace Manpage.Token

variable {t : Token} {ts : List Token} {m line : Text} {startsLine : Bool} {column : Int}
  {number : Nat}

/-- The tokens of a chunk are not those of an empty line. Each is a macro, a blank or a lexeme of
ink. -/
theorem ne_emptyLine_of_mem_ofChunk {number : Int} (h : t ∈ ofChunk m startsLine number column) :
    t.kind ≠ .emptyLine := by
  obtain ⟨x, hx, hkind, -⟩ := exists_of_mem_place h
  rw [hkind]
  cases m with
  | nil => exact absurd hx List.not_mem_nil
  | cons c u =>
    simp only [lexemes] at hx
    split at hx
    · obtain rfl := List.mem_singleton.mp hx
      simp
    · split at hx
      · obtain rfl := List.mem_singleton.mp hx
        simp
      · rcases Lexeme.kind_cases_of_mem_ofChunk hx with hk | hk | hk | hk | hk | hk | hk | hk <;>
          simp [hk]

/-- A line that is not blank has no token for an empty line. It has the tokens of its chunks, or
none where it is a comment. -/
theorem ne_emptyLine_of_mem_ofLine (hblank : line.isBlank = false) (h : t ∈ ofLine number line) :
    t.kind ≠ .emptyLine := by
  unfold ofLine at h
  rw [if_neg (by simp [hblank])] at h
  split at h
  · exact absurd h List.not_mem_nil
  · split at h
    · exact absurd h List.not_mem_nil
    · rcases List.mem_append.mp h with h | h
      · exact ne_emptyLine_of_mem_ofChunk h
      · obtain ⟨chunk, -, h⟩ := List.mem_flatMap.mp h
        exact ne_emptyLine_of_mem_ofChunk h

/-- The first token of tokens that spell out a line starts it, and no other does. -/
theorem Spells.startsLine_of_eq_cons (h : Spells line (t :: ts)) :
    t.startsLine = true ∧ ∀ u ∈ ts, u.startsLine = false := by
  refine ⟨(h.startsLine_iff [] t ts rfl).mpr rfl, ?_⟩
  intro u hu
  obtain ⟨before, after, rfl⟩ := List.append_of_mem hu
  rw [← Bool.not_eq_true]
  intro hl
  exact absurd ((h.startsLine_iff (t :: before) u after rfl).mp hl) (List.cons_ne_nil _ _)

/-- **The first token of a line** starts it, and no other does. The tokens of a line stand side by
side, and only the first of these is marked. -/
theorem startsLine_of_ofLine_eq_cons (h : ofLine number line = t :: ts) :
    t.startsLine = true ∧ ∀ u ∈ ts, u.startsLine = false := by
  by_cases hblank : line.isBlank = true
  · rw [ofLine_of_isBlank number hblank] at h
    obtain ⟨rfl, rfl⟩ := List.cons.inj h
    exact ⟨rfl, fun u hu => absurd hu List.not_mem_nil⟩
  · have hblank : line.isBlank = false := by simpa using hblank
    by_cases hcomment : isCommentLine line = true
    · rw [ofLine_of_isCommentLine number hblank hcomment] at h
      exact absurd h (List.cons_ne_nil t ts).symm
    · have hspells := spells_ofLine number hblank (by simpa using hcomment)
      rw [h] at hspells
      exact hspells.startsLine_of_eq_cons

/-- So does the first of several lines. Lines without tokens are passed over. -/
theorem startsLine_of_ofLines_eq_cons {lines : List Text} (h : ofLines number lines = t :: ts) :
    t.startsLine = true := by
  induction lines generalizing number with
  | nil => exact absurd h (List.cons_ne_nil t ts).symm
  | cons line lines ih =>
    rw [ofLines] at h
    cases hline : ofLine number line with
    | nil => exact ih (by simpa [hline] using h)
    | cons u us =>
      rw [hline] at h
      obtain rfl := (List.cons.inj h).1
      exact (startsLine_of_ofLine_eq_cons hline).1

/-- **The first token of a line of text** is not the name of a macro. Such a line is spelled out by
its tokens, so there is one, and a macro would begin with a point. -/
theorem exists_ofLine_eq_cons (number : Nat) (hblank : line.isBlank = false)
    (hcomment : isCommentLine line = false) (hpoint : line.head? ≠ some '.') :
    ∃ t ts, ofLine number line = t :: ts ∧ t.startsLine = true ∧ t.kind ≠ .macroName ∧
      t.kind ≠ .emptyLine ∧ ∀ u ∈ ts, u.startsLine = false := by
  have hspells := spells_ofLine number hblank hcomment
  obtain ⟨t, ts, heq⟩ := List.exists_cons_of_ne_nil hspells.ne_nil
  have hmem : t ∈ ofLine number line := heq ▸ List.mem_cons_self
  obtain ⟨hl, hts⟩ := startsLine_of_ofLine_eq_cons heq
  refine ⟨t, ts, heq, hl, ?_, ne_emptyLine_of_mem_ofLine hblank hmem, hts⟩
  intro hk
  exact hpoint (hspells.exists_macroName_iff.mp ⟨t, hmem, hk⟩)

end Manpage.Token
