import Manpage.Proofs.Token.Occurrence
import Mathlib.Algebra.Ring.Nat

/-!
# The division of a line

The chunks of a line are determined by what they are: pieces of the line from its start to its end,
each of one sort, none of which could be longer. No line has two such divisions, however it is read.

Both halves rest on one fact about neighbouring pieces: the last character of the one and the first
of the other belong to different chunks just where no sort is that of both.

## Main definitions

* `Manpage.IsDivision` — the cutting of a line into texts of one sort that are as long as possible.
* `Manpage.IsChunking` — such texts, each with its distance from the start of the line.

## Main results

* `Manpage.splitBy_eq_iff_isDivision` — a line has one division.
* `Manpage.Chunk.ofLine_eq_iff_isChunking` — the chunks of a line are its division.
-/

namespace Manpage

variable {line t u : Text} {ts : List Text} {s : ChunkSort} {offset : Nat} {cs : List Chunk}

/-! ## Where a line is cut -/

/-- The cutting of a line into texts of one sort, no two neighbours of which are of the same. -/
structure IsDivision (line : Text) (ts : List Text) : Prop where
  flatten_eq : ts.flatten = line
  ne_nil : ∀ t ∈ ts, t ≠ []
  isOf : ∀ t ∈ ts, ∃ s, t.IsOf s
  not_isOf : ts.IsChain fun t u => ∀ s, t.IsOf s → ¬ u.IsOf s

/-- A text with a character in it has one sort at most. -/
theorem Text.IsOf.eq {r : ChunkSort} (hs : t.IsOf s) (hr : t.IsOf r) (hne : t ≠ []) : s = r := by
  obtain ⟨c, hc⟩ := List.exists_mem_of_ne_nil t hne
  rw [← Text.isOf_iff.mp hs c hc, ← Text.isOf_iff.mp hr c hc]

/-- Two texts, each of one sort, are cut apart just where no sort is that of both. The sort of a
text is that of any of its characters. -/
theorem sameChunk_getLast_head_eq_false_iff (ht : t ≠ []) (hu : u ≠ [])
    (htsort : ∃ s, t.IsOf s) (husort : ∃ s, u.IsOf s) :
    sameChunk (t.getLast ht) (u.head hu) = false ↔ ∀ s, t.IsOf s → ¬ u.IsOf s := by
  obtain ⟨s, hs⟩ := htsort
  obtain ⟨r, hr⟩ := husort
  rw [← Bool.not_eq_true, sameChunk_iff, Text.isOf_iff.mp hs _ (List.getLast_mem ht),
    Text.isOf_iff.mp hr _ (List.head_mem hu)]
  constructor
  · intro hne q hqt hqu
    exact hne ((hs.eq hqt ht).trans (hqu.eq hr hu))
  · rintro h rfl
    exact h s hs hr

/-- Texts of one sort each are cut apart everywhere just where no two neighbours share a sort. -/
theorem isChain_cut_iff (hne : ∀ t ∈ ts, t ≠ []) (hsort : ∀ t ∈ ts, ∃ s, t.IsOf s) :
    (ts.IsChain fun t u => ∃ ht hu, sameChunk (t.getLast ht) (u.head hu) = false) ↔
      ts.IsChain fun t u => ∀ s, t.IsOf s → ¬ u.IsOf s := by
  refine List.IsChain.iff_of_mem_imp fun t u ht hu => ?_
  rw [← sameChunk_getLast_head_eq_false_iff (hne t ht) (hne u hu) (hsort t ht) (hsort u hu)]
  exact ⟨fun ⟨_, _, h⟩ => h, fun h => ⟨_, _, h⟩⟩

/-- **A line has one division:** it is cut where two neighbours do not belong to one chunk. What
makes a split the only one are its parts, which are of one sort each, and the cuts between
neighbours. -/
theorem splitBy_eq_iff_isDivision : line.splitBy sameChunk = ts ↔ IsDivision line ts := by
  rw [List.splitBy_eq_iff]
  simp only [isChain_sameChunk_iff]
  constructor
  · rintro ⟨rfl, hnil, hsort, hcut⟩
    have hne : ∀ t ∈ ts, t ≠ [] := fun t ht => ne_of_mem_of_not_mem ht hnil
    exact ⟨rfl, hne, hsort, (isChain_cut_iff hne hsort).mp hcut⟩
  · rintro ⟨rfl, hne, hsort, hcut⟩
    exact ⟨rfl, fun hnil => hne [] hnil rfl, hsort, (isChain_cut_iff hne hsort).mpr hcut⟩

/-! ## Offsets -/

/-- The division of a line, each text with the length of those before it. -/
structure IsChunking (line : Text) (cs : List Chunk) : Prop where
  isDivision : IsDivision line (cs.map Chunk.text)
  offset_eq : ∀ before c after, cs = before ++ c :: after →
    c.offset = (before.map fun b => b.text.length).sum

namespace Chunk

/-- Chunks are placed side by side just where each offset counts what is placed before.

**Proof sketch.** From left to right by induction on the texts, from right to left on the chunks.
In both, what is before a later chunk begins with the first one. -/
theorem place_eq_iff :
    place offset ts = cs ↔ cs.map text = ts ∧
      ∀ before c after, cs = before ++ c :: after →
        c.offset = offset + (before.map fun b => b.text.length).sum := by
  constructor
  · rintro rfl
    refine ⟨map_text_place offset ts, ?_⟩
    induction ts generalizing offset with
    | nil => simp [place]
    | cons t ts ih =>
      intro before c after h
      rw [place, List.cons_eq_append_iff] at h
      rcases h with ⟨rfl, h⟩ | ⟨before, rfl, h⟩
      · obtain ⟨rfl, -⟩ := List.cons.inj h
        rfl
      · rw [ih before c after h, List.map_cons, List.sum_cons, Nat.add_assoc]
  · rintro ⟨rfl, hoffset⟩
    induction cs generalizing offset with
    | nil => rfl
    | cons c cs ih =>
      have hfirst : c.offset = offset := hoffset [] c cs rfl
      rw [List.map_cons, place, ih, ← hfirst]
      intro before d after h
      rw [hoffset (c :: before) d after (by rw [h, List.cons_append]), List.map_cons,
        List.sum_cons, Nat.add_assoc]

/-- **The chunks of a line** are its only division into texts that are free of blanks or repeat one
blank and could not be longer, each with the length of those before it. -/
theorem ofLine_eq_iff_isChunking : ofLine line = cs ↔ IsChunking line cs := by
  rw [ofLine, place_eq_iff]
  simp only [Nat.zero_add]
  constructor
  · rintro ⟨htexts, hoffset⟩
    exact ⟨splitBy_eq_iff_isDivision.mp htexts.symm, hoffset⟩
  · rintro ⟨hdivision, hoffset⟩
    exact ⟨(splitBy_eq_iff_isDivision.mpr hdivision).symm, hoffset⟩

/-- Spaces and tabs side by side are chunks of their own. -/
example :
    ofLine "ab \t\t c".toList =
      [⟨0, ['a', 'b']⟩, ⟨2, [' ']⟩, ⟨3, ['\t', '\t']⟩, ⟨5, [' ']⟩, ⟨6, ['c']⟩] := by
  decide

end Chunk

end Manpage
