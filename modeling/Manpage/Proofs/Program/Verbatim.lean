import Manpage.Proofs.Program.Request
import Manpage.Proofs.Prose.Line
import Manpage.Proofs.Token.Place

/-!
# Lines written to be copied

A line that does not begin with a point is written so that it stands for itself when every backslash
on it is doubled: its chunks are those of the line, each with its backslashes doubled, and are read
as what they were.

## Main definitions

* `Manpage.Text.doubled` — a text with every backslash doubled.
* `Manpage.Part.ofLine` — the blanks and words of a line.
* `Manpage.IsCopy` — the instructions for lines that stand for themselves.

## Main results

* `Manpage.splitBy_doubled` — doubling the backslashes of a line doubles those of its chunks.
* `Manpage.reads_doubled` — a chunk with its backslashes doubled is read as the chunk.
* `Manpage.exists_isCopy_ofLines` — the program of lines with their backslashes doubled.
-/

namespace Manpage

variable {isolating : Bool} {t u m line : Text} {lines ms : List Text}

/-! ## Backslashes doubled -/

namespace Text

/-- The text with every backslash doubled. -/
def doubled (t : Text) : Text :=
  t.flatMap fun c => if c = '\\' then ['\\', '\\'] else [c]

/-- The empty text has no backslash to be doubled. -/
@[simp] theorem doubled_nil : doubled [] = [] := rfl

/-- A backslash in front is doubled. -/
theorem doubled_cons_backslash (t : Text) : doubled ('\\' :: t) = '\\' :: '\\' :: t.doubled := rfl

/-- Any other character in front stays as it is. -/
theorem doubled_cons {c : Char} (hc : c ≠ '\\') (t : Text) : doubled (c :: t) = c :: t.doubled := by
  rw [doubled, List.flatMap_cons, if_neg hc]
  rfl

/-- The backslashes of two texts are doubled in each. -/
@[simp] theorem doubled_append (t u : Text) : (t ++ u).doubled = t.doubled ++ u.doubled :=
  List.flatMap_append

/-- A single character is doubled if it is a backslash. -/
theorem doubled_singleton (c : Char) : doubled [c] = if c = '\\' then ['\\', '\\'] else [c] :=
  List.flatMap_singleton _ c

/-- Doubling backslashes adds no other character. -/
@[simp] theorem mem_doubled {c : Char} : c ∈ t.doubled ↔ c ∈ t := by
  have hchar : ∀ d, (c ∈ if d = '\\' then ['\\', '\\'] else [d]) ↔ c = d := by
    intro d
    split
    · rename_i hd
      simp [hd]
    · simp
  simp [doubled, hchar]

/-- A text begins with the same character when its backslashes are doubled. -/
theorem head?_doubled (t : Text) : t.doubled.head? = t.head? := by
  cases t with
  | nil => rfl
  | cons c t =>
    by_cases hc : c = '\\'
    · rw [hc, doubled_cons_backslash, List.head?_cons, List.head?_cons]
    · rw [doubled_cons hc, List.head?_cons, List.head?_cons]

/-- A text ends with the same character when its backslashes are doubled. -/
theorem getLast?_doubled (t : Text) : t.doubled.getLast? = t.getLast? := by
  rcases List.eq_nil_or_concat t with rfl | ⟨front, c, rfl⟩
  · rfl
  · rw [List.concat_eq_append, doubled_append, doubled_singleton]
    split
    · rename_i hc
      simp [hc]
    · simp

/-- Only the empty text is empty with its backslashes doubled. -/
theorem doubled_eq_nil_iff : t.doubled = [] ↔ t = [] := by
  rw [← List.head?_eq_none_iff, head?_doubled, List.head?_eq_none_iff]

/-- A text is blank with its backslashes doubled just if it is blank. -/
@[simp] theorem isBlank_doubled (t : Text) : t.doubled.isBlank = t.isBlank := by
  rw [Bool.eq_iff_iff, isBlank_iff, isBlank_iff]
  simp

/-- A text is ink with its backslashes doubled just if it is ink. -/
@[simp] theorem isInk_doubled (t : Text) : t.doubled.isInk = t.isInk := by
  rw [Bool.eq_iff_iff, isInk_iff, isInk_iff]
  simp

/-- There are no backslashes among blanks. By induction on the text. -/
theorem doubled_of_isBlank (h : t.isBlank = true) : t.doubled = t := by
  induction t with
  | nil => rfl
  | cons c t ih =>
    rw [isBlank_cons, Bool.and_eq_true] at h
    have hc : c ≠ '\\' := by
      rintro rfl
      exact absurd h.1 (by decide)
    rw [doubled_cons hc, ih h.2]

end Text

/-! ## Chunks -/

/-- The chunks of a line with its backslashes doubled are its chunks with theirs doubled.

**Proof sketch.** Ink stays ink, and blanks stay as they are. So the chunks stay chunks, and since
they begin and end with the same characters, no two of them grow together. -/
theorem splitBy_doubled (line : Text) :
    line.doubled.splitBy sameChunk = (line.splitBy sameChunk).map Text.doubled := by
  have hflatten : line.doubled = ((line.splitBy sameChunk).map Text.doubled).flatten := by
    conv_lhs => rw [← List.flatten_splitBy sameChunk line]
    generalize line.splitBy sameChunk = ms
    induction ms with
    | nil => rfl
    | cons m ms ih => rw [List.flatten_cons, Text.doubled_append, ih, List.map_cons,
        List.flatten_cons]
  rw [hflatten]
  refine List.splitBy_flatten ?_ ?_ ?_
  · intro hnil
    obtain ⟨m, hm, hdoubled⟩ := List.mem_map.mp hnil
    exact List.ne_nil_of_mem_splitBy hm (Text.doubled_eq_nil_iff.mp hdoubled)
  · intro m hm
    obtain ⟨a, ha, rfl⟩ := List.mem_map.mp hm
    have hchain := List.isChain_of_mem_splitBy ha
    rcases isBlank_or_isInk_of_isChain hchain with hb | hk
    · rwa [Text.doubled_of_isBlank hb]
    · exact isChain_of_isInk (by rwa [Text.isInk_doubled])
  · rw [List.isChain_map]
    refine (List.isChain_getLast_head_splitBy sameChunk line).imp ?_
    rintro (a b : Text) ⟨ha, hb, hab⟩
    have ha' : a.doubled ≠ [] := fun h => ha (Text.doubled_eq_nil_iff.mp h)
    have hb' : b.doubled ≠ [] := fun h => hb (Text.doubled_eq_nil_iff.mp h)
    have hlast : a.doubled.getLast ha' = a.getLast ha := by
      have hsome := Text.getLast?_doubled a
      rwa [List.getLast?_eq_some_getLast ha', List.getLast?_eq_some_getLast ha,
        Option.some.injEq] at hsome
    have hhead : b.doubled.head hb' = b.head hb := by
      have hsome := Text.head?_doubled b
      rwa [List.head?_eq_some_head hb', List.head?_eq_some_head hb, Option.some.injEq] at hsome
    exact ⟨ha', hb', by rw [hlast, hhead, hab]⟩

/-- A chunk of ink with its backslashes doubled is read as the chunk. By induction on its
characters: two backslashes are an escape that stands for one, and a quote or a plain character
stands for itself. -/
theorem reads_doubled (h : u.isInk = true) : Reads u.doubled u := by
  induction u with
  | nil => exact Reads.nil
  | cons c u ih =>
    rw [Text.isInk_cons, Bool.and_eq_true, Bool.not_eq_true'] at h
    by_cases hbackslash : c = '\\'
    · subst hbackslash
      rw [Text.doubled_cons_backslash]
      exact Prose.reads_literal ['\\'] rfl (by simp) (by decide) (ih h.2)
    · rw [Text.doubled_cons hbackslash]
      by_cases hquote : c = '"'
      · subst hquote
        exact (ih h.2).quote
      · refine Reads.plain ?_ h.1 (ih h.2)
        simp [Lexeme.isPlain, hbackslash, hquote]

/-- No backslash of a text with its backslashes doubled stands before a quote or a number sign.
Behind a backslash stands the other one of the two. -/
theorem not_isPrefix_doubled {command : Char} (h : command ≠ '\\') (t : Text) :
    ¬ ['\\', command] <+: t.doubled := by
  cases t with
  | nil => simp
  | cons c t =>
    by_cases hc : c = '\\'
    · rw [hc, Text.doubled_cons_backslash, List.cons_prefix_cons, List.cons_prefix_cons]
      exact fun hprefix => h hprefix.2.1
    · rw [Text.doubled_cons hc, List.cons_prefix_cons]
      exact fun hprefix => hc hprefix.1.symm

/-- A chunk with its backslashes doubled makes no line a comment unless it begins with a point.

**Proof sketch.** Comments begin with a point or with one of a few leaders, in which a single
backslash stands before a quote or another character. Where backslashes are doubled there is none.
-/
theorem isComment_doubled (h : m.head? ≠ some '.') : isComment m.doubled = false := by
  have hpoint : ∀ u, ¬ '.' :: u <+: m.doubled := by
    rintro u ⟨rest, heq⟩
    rw [← Text.head?_doubled, ← heq] at h
    exact h rfl
  have hapostrophe : ¬ ['\'', '\\', '"'] <+: m.doubled := by
    cases m with
    | nil => simp
    | cons c m =>
      by_cases hc : c = '\\'
      · rw [hc, Text.doubled_cons_backslash, List.cons_prefix_cons]
        exact fun hprefix => absurd hprefix.1 (by decide)
      · rw [Text.doubled_cons hc, List.cons_prefix_cons]
        exact fun hprefix => not_isPrefix_doubled (by decide) m hprefix.2
  refine Prose.isComment_eq_false ?_ ?_
  · intro heq
    exact hpoint [] (heq ▸ List.prefix_refl _)
  · intro leader hleader
    simp only [commentLeaders, List.mem_cons, List.not_mem_nil, or_false] at hleader
    rcases hleader with rfl | rfl | rfl | rfl
    · exact not_isPrefix_doubled (by decide) m
    · exact hpoint _
    · exact hapostrophe
    · exact not_isPrefix_doubled (by decide) m

/-! ## Lines -/

/-- A chunk as a part of its line. -/
def Part.ofChunk (m : Text) : Part :=
  if m.isBlank then .blank m else .word m

/-- The blanks and words of a line. -/
def Part.ofLine (line : Text) : List Part :=
  (line.splitBy sameChunk).map Part.ofChunk

/-- The part of a chunk has the text of the chunk. -/
theorem Part.text_ofChunk (m : Text) : (Part.ofChunk m).text = m := by
  unfold Part.ofChunk
  split <;> rfl

/-- The parts of a line make it up. -/
theorem Part.flatMap_text_ofLine (line : Text) : (Part.ofLine line).flatMap Part.text = line := by
  have hmap : (line.splitBy sameChunk).map (fun m => (Part.ofChunk m).text) =
      line.splitBy sameChunk := by
    simp [Part.text_ofChunk]
  rw [Part.ofLine, List.flatMap_map, List.flatMap_def, hmap, List.flatten_splitBy]

/-- Chunks with their backslashes doubled are read as what they were, each backslash as an escape
that stands for itself.

**Proof sketch.** By induction on the chunks. Doubling leaves blanks alone and ink as ink, so that
the chunks keep taking turns. -/
theorem readsRow_doubled (hne : ∀ m ∈ ms, m ≠ [])
    (hsort : ∀ m ∈ ms, m.isBlank = true ∨ m.isInk = true)
    (hchain : ms.IsChain fun a b => Text.isInk a = true → Text.isInk b = false) :
    ReadsRow (ms.map Text.doubled) (ms.map Part.ofChunk) := by
  induction ms with
  | nil => exact .nil
  | cons m ms ih =>
    have hm : m ≠ [] := hne m List.mem_cons_self
    have hmore := ih (fun a ha => hne a (List.mem_cons_of_mem m ha))
      (fun a ha => hsort a (List.mem_cons_of_mem m ha)) hchain.tail
    have hdoubled : m.doubled ≠ [] := fun h => hm (Text.doubled_eq_nil_iff.mp h)
    rw [List.map_cons, List.map_cons, Part.ofChunk]
    rcases hsort m List.mem_cons_self with hb | hk
    · rw [if_pos hb, Text.doubled_of_isBlank hb]
      exact .blank hm hb hmore
    · rw [if_neg (by simp [Text.isBlank_eq_false_of_isInk hk hm])]
      refine .word hdoubled (by rwa [Text.isInk_doubled]) (reads_doubled hk) ?_ hmore
      intro a ha
      cases ms with
      | nil => exact absurd ha (by simp)
      | cons b ms =>
        obtain rfl : b.doubled = a := by simpa using ha
        rw [Text.isInk_doubled]
        exact (List.isChain_cons_cons.mp hchain).1 hk

/-- **A doubled line** is read as the row of its chunks: the chunks of the doubled line are those of
the line, each with its backslashes doubled. -/
theorem readsRow_splitBy_doubled (line : Text) :
    ReadsRow (line.doubled.splitBy sameChunk) (Part.ofLine line) := by
  rw [splitBy_doubled]
  exact readsRow_doubled (fun _ hm => List.ne_nil_of_mem_splitBy hm)
    (fun _ hm => isBlank_or_isInk_of_isChain (List.isChain_of_mem_splitBy hm))
    (isChain_not_isInk_splitBy line)

/-- **The program of a line with its backslashes doubled**, unless it is blank: the instructions for
the blanks and words of the line.

**Proof sketch.** Doubling does not change where the chunks begin and end, and the first of them is
no comment. So the line is a row of chunks that are read as what they were. -/
theorem exists_program_doubled (hblank : line.isBlank = false) (hpoint : line.head? ≠ some '.')
    (isolating : Bool) (number : Nat) :
    (∃ is, program isolating (Token.ofLine number line.doubled) = .beginLine :: is ∧
        IsRow (Part.ofLine line) is) ∧
      ∀ f ∈ (feedAll isolating [] (Token.ofLine number line.doubled)).frames, f.EndsAtLine := by
  have hrow := readsRow_splitBy_doubled line
  rcases hms : line.splitBy sameChunk with _ | ⟨(m : Text), ms⟩
  · rw [List.splitBy_eq_nil.mp hms] at hblank
    exact absurd hblank (by simp)
  · rw [splitBy_doubled, hms, List.map_cons] at hrow
    have hm : m.head? ≠ some '.' := by rwa [← Token.head?_line_eq hms]
    have htokens : Token.ofLine number line.doubled =
        Token.ofChunk m.doubled true number 1 ++
          Token.ofChunks number m.doubled.length (ms.map Text.doubled) := by
      simp [Token.ofLine, hblank, Chunk.ofLine, splitBy_doubled, hms, Chunk.place,
        isComment_doubled hm, Token.ofChunks]
    rw [htokens]
    exact hrow.program_eq (by rwa [Text.head?_doubled]) number 1 _

/-- The instructions for lines that stand for themselves. -/
inductive IsCopy : List Text → List Instr → Prop where
  | nil : IsCopy [] []
  | blank (t : Token) {line : Text} {lines : List Text} {is : List Instr} : line.isBlank = true →
      IsCopy lines is → IsCopy (line :: lines) (.beginLine :: .consume t :: .emptyLine :: is)
  | row {line : Text} {lines : List Text} {is js : List Instr} : line.isBlank = false →
      IsRow (Part.ofLine line) is → IsCopy lines js →
        IsCopy (line :: lines) (.beginLine :: is ++ js)

/-- **The program of lines with their backslashes doubled** copies them, one after the other: a
blank line is an empty one, and any other is a row of words and blanks.

**Proof sketch.** By induction on the lines. No line leaves a frame that the next one could come to,
as all of them end with their line. -/
theorem exists_isCopy_ofLines (hpoint : ∀ line ∈ lines, line.head? ≠ some '.') (isolating : Bool)
    (number : Nat) :
    ∃ is, IsCopy lines is ∧
      program isolating (Token.ofLines number (lines.map Text.doubled)) = is := by
  induction lines generalizing number with
  | nil => exact ⟨[], .nil, rfl⟩
  | cons line lines ih =>
    obtain ⟨js, hjs, hmore⟩ := ih (fun l hl => hpoint l (List.mem_cons_of_mem line hl)) (number + 1)
    rw [List.map_cons]
    cases hblank : line.isBlank with
    | true =>
      have hline : Token.ofLine number line.doubled = [⟨.emptyLine, [], true, number, 1⟩] :=
        Token.ofLine_of_isBlank number (by rwa [Text.isBlank_doubled])
      refine ⟨_, .blank ⟨.emptyLine, [], true, number, 1⟩ hblank hjs, ?_⟩
      have hends : ∀ f ∈ (feedAll isolating [] (Token.ofLine number line.doubled)).frames,
          f.EndsAtLine := by
        rw [hline]
        exact fun f hf => absurd hf List.not_mem_nil
      rw [program_ofLines _ _ _ hends, hline, hmore]
      rfl
    | false =>
      obtain ⟨⟨is, hprogram, his⟩, hends⟩ :=
        exists_program_doubled hblank (hpoint line List.mem_cons_self) isolating number
      refine ⟨_, .row hblank his hjs, ?_⟩
      rw [program_ofLines _ _ _ hends, hprogram, hmore]

end Manpage
