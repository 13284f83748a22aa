import Manpage.Proofs.Text.Blank
import Manpage.Token.Chunk
import Mathlib.Data.List.SplitBy

/-!
# The chunks of a line

A line is cut wherever two neighbouring characters do not belong to one chunk. So a chunk is of one
sort, a repeated blank or ink, and two chunks of ink never stand side by side.

Every character has a sort, and two of them belong to one chunk just where they have the same one.
So a text is free of cuts just where it has a sort, and where a line is cut, the sort changes.

## Main definitions

* `Manpage.ChunkSort` — what a chunk is made of.
* `Manpage.Text.IsOf` — a text of one sort.
* `Manpage.chunkSort` — the sort of the chunk that a character belongs to.

## Main results

* `Manpage.isChain_sameChunk_iff` — a text without a cut is one that has a sort.
* `Manpage.isBlank_or_isInk_of_isChain` — a chunk is of one sort.
* `Manpage.splitBy_append_of_isSpace` — a text is cut where blanks and ink meet.
* `Manpage.splitBy_ink_append` — ink before a blank, or at the end of a line, is a chunk.
* `Manpage.isBlank_of_mem_splitBy` — blanks are cut into blank chunks.
* `Manpage.isChain_not_isInk_splitBy` — of two neighbouring chunks, one is not ink.
-/

namespace Manpage

variable {c d : Char} {line t : Text} {s : ChunkSort}

/-- Ink belongs to one chunk with ink. -/
theorem sameChunk_of_ink (hc : isSpace c = false) (hd : isSpace d = false) :
    sameChunk c d = true := by
  simp [sameChunk, hc, hd]

/-- What belongs to one chunk is of one sort. -/
theorem isSpace_eq_of_sameChunk (h : sameChunk c d = true) : isSpace c = isSpace d := by
  simp only [sameChunk, Bool.or_eq_true, beq_iff_eq, Bool.and_eq_true, Bool.not_eq_true'] at h
  rcases h with rfl | ⟨hc, hd⟩
  · rfl
  · rw [hc, hd]

/-! ## The sorts of chunks -/

/-- What a chunk is made of. -/
inductive ChunkSort
  /-- any characters other than blanks -/
  | ink
  /-- one blank, repeated -/
  | blank (b : Char) (hb : isSpace b = true)

/-- A text of one sort is free of blanks, or repeats one blank. The empty text is of every sort. -/
def Text.IsOf (t : Text) : ChunkSort → Prop
  | .ink => t.isInk = true
  | .blank b _ => ∀ c ∈ t, c = b

/-- The sort of the chunk that a character belongs to. -/
def chunkSort (c : Char) : ChunkSort :=
  if h : isSpace c = true then .blank c h else .ink

/-- Two characters belong to one chunk just where they have one sort. -/
theorem sameChunk_iff : sameChunk c d = true ↔ chunkSort c = chunkSort d := by
  have hne : isSpace c ≠ isSpace d → c ≠ d := by
    rintro h rfl
    exact h rfl
  cases hc : isSpace c <;> cases hd : isSpace d <;> simp_all [sameChunk, chunkSort]

/-- A text is of one sort if all its characters have it. Of ink there is one sort, and of blanks one
for each character. -/
theorem Text.isOf_iff : t.IsOf s ↔ ∀ c ∈ t, chunkSort c = s := by
  cases s with
  | ink => simp [IsOf, isInk_iff, chunkSort]
  | blank b hb =>
    refine forall₂_congr fun c _ => ?_
    unfold chunkSort
    constructor
    · rintro rfl
      rw [dif_pos hb]
    · intro h
      split at h
      · exact ChunkSort.blank.inj h
      · exact ChunkSort.noConfusion h

/-- Neighbours belong to one chunk throughout a text just where the text is of one sort. Two
characters belong to one chunk if they are of one sort, and being of one sort is transitive. -/
theorem isChain_sameChunk_iff :
    (t.IsChain fun x y => sameChunk x y = true) ↔ ∃ s, t.IsOf s := by
  have hchain : (t.IsChain fun x y => sameChunk x y = true) ↔
      (t.map chunkSort).IsChain (· = ·) := by
    simp only [sameChunk_iff, List.isChain_map]
  rw [hchain]
  cases t with
  | nil => exact iff_of_true List.isChain_nil ⟨.ink, rfl⟩
  | cons c t =>
    rw [List.map_cons, List.isChain_cons_eq_iff_eq_replicate, List.eq_replicate_iff]
    simp [Text.isOf_iff]

/-- A chunk is all blanks or all ink. It is of one sort, and each sort is of blanks or of ink. -/
theorem isBlank_or_isInk_of_isChain {m : Text}
    (h : m.IsChain fun x y => sameChunk x y = true) : m.isBlank = true ∨ m.isInk = true := by
  obtain ⟨s, hs⟩ := isChain_sameChunk_iff.mp h
  cases s with
  | ink => exact Or.inr hs
  | blank b hb =>
    left
    rw [Text.isBlank_iff]
    intro c hc
    rw [hs c hc, hb]

/-- A text of ink is one chunk throughout. -/
theorem isChain_of_isInk {w : Text} (hw : w.isInk = true) :
    w.IsChain fun x y => sameChunk x y = true :=
  isChain_sameChunk_iff.mpr ⟨.ink, hw⟩

/-! ## Cuts -/

/-- A text is cut where blanks and ink meet. -/
theorem splitBy_append_of_isSpace {u rest : Text}
    (h : ∀ c ∈ u.getLast?, ∀ d ∈ rest.head?, isSpace c ≠ isSpace d) :
    (u ++ rest).splitBy sameChunk = u.splitBy sameChunk ++ rest.splitBy sameChunk := by
  refine List.splitBy_append fun c hc d hd => ?_
  by_contra hsame
  rw [Bool.not_eq_false] at hsame
  exact h c hc d hd (isSpace_eq_of_sameChunk hsame)

/-- Ink that is followed by a blank or by nothing is a chunk. -/
theorem splitBy_ink_append {w rest : Text} (hne : w ≠ []) (hw : w.isInk = true)
    (hrest : ∀ d ∈ rest.head?, isSpace d = true) :
    (w ++ rest).splitBy sameChunk = w :: rest.splitBy sameChunk := by
  rw [splitBy_append_of_isSpace, List.splitBy_of_isChain hne (isChain_of_isInk hw)]
  · rfl
  · intro c hc d hd
    simp [Text.isInk_iff.mp hw c (List.mem_of_mem_getLast? hc), hrest d hd]

/-- Blanks before ink, or at the end of a line, are chunks of their own. -/
theorem splitBy_blank_append {b rest : Text} (hb : b.isBlank = true)
    (hrest : ∀ d ∈ rest.head?, isSpace d = false) :
    (b ++ rest).splitBy sameChunk = b.splitBy sameChunk ++ rest.splitBy sameChunk := by
  refine splitBy_append_of_isSpace fun c hc d hd => ?_
  simp [Text.isBlank_iff.mp hb c (List.mem_of_mem_getLast? hc), hrest d hd]

/-- The characters of a chunk are characters of the line. -/
theorem mem_of_mem_splitBy {m : Text} (hm : m ∈ line.splitBy sameChunk) (hc : c ∈ m) :
    c ∈ line := by
  rw [← List.flatten_splitBy sameChunk line]
  exact List.mem_flatten.mpr ⟨m, hm, hc⟩

/-- The chunks of blanks are blank. -/
theorem isBlank_of_mem_splitBy {b m : Text} (hb : b.isBlank = true)
    (hm : m ∈ b.splitBy sameChunk) : m.isBlank = true := by
  rw [Text.isBlank_iff] at hb ⊢
  exact fun c hc => hb c (mem_of_mem_splitBy hm hc)

/-- Of two neighbouring chunks, one is not ink. The last character of the one and the first of the
other would belong to one chunk. -/
theorem isChain_not_isInk_splitBy (line : Text) :
    (line.splitBy sameChunk).IsChain fun a b => Text.isInk a = true → Text.isInk b = false := by
  refine (List.isChain_getLast_head_splitBy sameChunk line).imp ?_
  rintro a b ⟨ha, hb, hab⟩ hka
  by_contra hkb
  rw [Bool.not_eq_false] at hkb
  have hlast := Text.isInk_iff.mp hka _ (List.getLast_mem ha)
  have hhead := Text.isInk_iff.mp hkb _ (List.head_mem hb)
  rw [sameChunk_of_ink hlast hhead] at hab
  exact Bool.noConfusion hab

end Manpage
