import Manpage.Proofs.Program.Prose
import Manpage.Proofs.Prose.Word
import Manpage.Proofs.Text.Lines
import Manpage.Proofs.Token.Chunk

/-!
# Lines of prose

A line of prose has words with blanks between them, and no point at its start. It is never taken for
a comment, an empty line or a macro, and its chunks are its words and the blanks between them.

## Main definitions

* `Manpage.Prose.Gap`, `Manpage.Prose.Separator` — blanks on a line, and those between two words.
* `Manpage.Prose.Line` — a line of words.
* `Manpage.Prose.Line.source`, `Manpage.Prose.Line.meanings` — what is written for a line, and what
  its words stand for.

## Main results

* `Manpage.Prose.Line.isProse_splitBy` — the chunks of a line.
* `Manpage.Prose.exists_program_ofLines` — the program of lines of prose and others after them.
-/

namespace Manpage

/-! ## Chunks of prose -/

/-- Blank chunks before others. -/
theorem IsProse.blanks {bs ms ws : List Text} (hne : ∀ b ∈ bs, b ≠ [])
    (hb : ∀ b ∈ bs, Text.isBlank b = true) (h : IsProse ws ms) : IsProse ws (bs ++ ms) := by
  induction bs with
  | nil => exact h
  | cons b bs ih =>
    refine IsProse.blank (hne b List.mem_cons_self) (hb b List.mem_cons_self) ?_
    exact ih (fun x hx => hne x (List.mem_cons_of_mem b hx))
      (fun x hx => hb x (List.mem_cons_of_mem b hx))

/-- Blanks before ink, or at the end of a line. -/
theorem IsProse.splitBy_blank {b rest : Text} {ws : List Text} (hb : b.isBlank = true)
    (hrest : ∀ d ∈ rest.head?, isSpace d = false) (h : IsProse ws (rest.splitBy sameChunk)) :
    IsProse ws ((b ++ rest).splitBy sameChunk) := by
  rw [splitBy_blank_append hb hrest]
  refine h.blanks (fun m hm => List.ne_nil_of_mem_splitBy hm) ?_
  intro m hm
  exact isBlank_of_mem_splitBy hb hm

/-- A word before a blank, or at the end of a line. It is a chunk of its own, since what follows is
blank. -/
theorem IsProse.splitBy_word {u v rest : Text} {ws : List Text} (hne : u ≠ [])
    (hu : u.isInk = true) (hreads : Reads u v) (hrest : ∀ d ∈ rest.head?, isSpace d = true)
    (h : IsProse ws (rest.splitBy sameChunk)) :
    IsProse (v :: ws) ((u ++ rest).splitBy sameChunk) := by
  have hchain := isChain_not_isInk_splitBy (u ++ rest)
  rw [splitBy_ink_append hne hu hrest] at hchain ⊢
  refine IsProse.word hne hu hreads ?_ h
  intro m hm
  exact (List.isChain_cons.mp hchain).1 m hm hu

namespace Prose

/-! ## Lines -/

/-- Blanks on a line, which may be none. -/
abbrev Gap :=
  { t : Text // t.isBlank = true ∧ ∀ c ∈ t, isLineEnd c = false }

/-- The blanks between two words. -/
abbrev Separator :=
  { t : Gap // t.1 ≠ [] }

/-- A line of words with blanks between them. It does not begin with a point. -/
structure Line where
  lead : Gap
  first : Word
  rest : List (Separator × Word)
  trail : Gap
  no_point : (lead.1 ++ first.source).head? ≠ some '.'

namespace Line

/-- What is written behind the first word of a line. -/
def tail (rest : List (Separator × Word)) (trail : Gap) : Text :=
  (rest.flatMap fun p => p.1.1.1 ++ p.2.source) ++ trail.1

/-- What is written for a line. -/
def source (l : Line) : Text :=
  l.lead.1 ++ (l.first.source ++ tail l.rest l.trail)

/-- The words of a line. -/
def words (l : Line) : List Word :=
  l.first :: l.rest.map Prod.snd

/-- What the words of a line stand for. -/
def meanings (l : Line) : List Text :=
  l.words.map Word.meaning

/-- Behind the first word, a line goes on with a gap and the next word. -/
theorem tail_cons (p : Separator × Word) (rest : List (Separator × Word)) (trail : Gap) :
    tail (p :: rest) trail = p.1.1.1 ++ (p.2.source ++ tail rest trail) := by
  simp [tail]

/-- What is written behind a word begins with a blank. That is a separator, or the gap at the end of
the line. -/
theorem isSpace_of_mem_head?_tail (rest : List (Separator × Word)) (trail : Gap) :
    ∀ d ∈ (tail rest trail).head?, isSpace d = true := by
  have hgap : ∀ (g : Gap) (d : Char), d ∈ g.1.head? → isSpace d = true := by
    intro g d hd
    exact Text.isBlank_iff.mp g.2.1 d (List.mem_of_mem_head? hd)
  intro d hd
  cases rest with
  | nil => exact hgap trail d hd
  | cons p rest =>
    rw [tail_cons, List.head?_append_of_ne_nil _ p.1.2] at hd
    exact hgap p.1.1 d hd

/-- A word begins with ink. -/
theorem isSpace_of_mem_head?_word (w : Word) (u : Text) :
    ∀ d ∈ (w.source ++ u).head?, isSpace d = false := by
  intro d hd
  rw [List.head?_append_of_ne_nil _ w.source_ne_nil] at hd
  exact Text.isInk_iff.mp w.isInk_source d (List.mem_of_mem_head? hd)

/-- The chunks behind the first word of a line. By induction on the words, each with its separator
before it. -/
theorem isProse_splitBy_tail (rest : List (Separator × Word)) (trail : Gap) :
    IsProse ((rest.map Prod.snd).map Word.meaning) ((tail rest trail).splitBy sameChunk) := by
  induction rest with
  | nil =>
    have hnil : IsProse [] ((trail.1 ++ []).splitBy sameChunk) :=
      IsProse.nil.splitBy_blank trail.2.1 (by simp)
    rwa [List.append_nil] at hnil
  | cons p rest ih =>
    rw [tail_cons]
    refine IsProse.splitBy_blank p.1.1.2.1 (isSpace_of_mem_head?_word p.2 _) ?_
    exact ih.splitBy_word p.2.source_ne_nil p.2.isInk_source p.2.reads
      (isSpace_of_mem_head?_tail rest trail)

/-- **The chunks of a line.** They are its words, each read as what it stands for, and the blanks
between them. -/
theorem isProse_splitBy (l : Line) : IsProse l.meanings (l.source.splitBy sameChunk) := by
  refine IsProse.splitBy_blank l.lead.2.1 (isSpace_of_mem_head?_word l.first _) ?_
  exact (isProse_splitBy_tail l.rest l.trail).splitBy_word l.first.source_ne_nil
    l.first.isInk_source l.first.reads (isSpace_of_mem_head?_tail l.rest l.trail)

/-- No line of prose has a point at its start, so none is taken for the line of a macro. -/
theorem head?_source (l : Line) : l.source.head? ≠ some '.' := by
  have hne : l.lead.1 ++ l.first.source ≠ [] := by
    intro hnil
    exact l.first.source_ne_nil (List.append_eq_nil_iff.mp hnil).2
  rw [source, ← List.append_assoc, List.head?_append_of_ne_nil _ hne]
  exact l.no_point

/-- A line is not blank. -/
theorem isBlank_source (l : Line) : l.source.isBlank = false := by
  simp [source, Text.isBlank_eq_false_of_isInk l.first.isInk_source l.first.source_ne_nil]

/-- No line ends within a line. Words are ink, and gaps have no line end by themselves. -/
theorem isLineEnd_of_mem (l : Line) : ∀ c ∈ l.source, isLineEnd c = false := by
  intro c hc
  simp only [source, tail, List.mem_append, List.mem_flatMap] at hc
  rcases hc with hc | hc | ⟨p, -, hc | hc⟩ | hc
  · exact l.lead.2.2 c hc
  · exact Text.isLineEnd_of_isInk l.first.isInk_source c hc
  · exact p.1.1.2.2 c hc
  · exact Text.isLineEnd_of_isInk p.2.isInk_source c hc
  · exact l.trail.2.2 c hc

end Line

/-! ## Comments -/

/-- A part of a word is a character, or an escape that begins no comment. The escapes that begin a
comment have other commands. -/
theorem Item.exists_source (i : Item) : (∃ c, i.source = [c] ∧ c ≠ '\\') ∨
    ∃ command rest, i.source = '\\' :: command :: rest ∧ command ∉ ['"', '#'] := by
  cases i with
  | plain c hc => exact Or.inl ⟨c, rfl, hc⟩
  | backslash command h =>
    refine Or.inr ⟨command, [], rfl, ?_⟩
    simp only [List.mem_cons, List.not_mem_nil, or_false] at h
    rcases h with rfl | rfl <;> decide
  | hyphen => exact Or.inr ⟨_, _, rfl, by decide⟩
  | apostrophe bracketed =>
    cases bracketed with
    | false => exact Or.inr ⟨_, _, rfl, by decide⟩
    | true => exact Or.inr ⟨_, _, rfl, by decide⟩
  | mnemonic x y _ => exact Or.inr ⟨_, _, rfl, by decide⟩
  | named name _ => exact Or.inr ⟨_, _, rfl, by decide⟩
  | parameter command h argument =>
    refine Or.inr ⟨command, _, rfl, ?_⟩
    simp only [List.mem_cons, List.not_mem_nil, or_false] at h
    rcases h with rfl | rfl | rfl <;> decide
  | unknown command h =>
    refine Or.inr ⟨command, _, rfl, ?_⟩
    simp only [List.mem_cons, List.not_mem_nil, or_false, not_or] at h ⊢
    exact ⟨h.2.2.2.2.2.2.2.2.2.1, h.2.2.2.2.2.2.2.2.2.2⟩

/-- No parts of a word begin with the escape of a comment. A part begins with a plain character, or
with a backslash and a command of its own. -/
theorem not_isPrefix_items (items : List Item) {command : Char} (h : command ∈ ['"', '#']) :
    ¬ ['\\', command] <+: items.flatMap Item.source := by
  cases items with
  | nil => simp
  | cons i items =>
    rw [List.flatMap_cons]
    rcases i.exists_source with ⟨c, heq, hc⟩ | ⟨command', rest, heq, hcommand⟩
    · rw [heq, List.singleton_append, List.cons_prefix_cons]
      exact fun h => hc h.1.symm
    · rw [heq, List.cons_append, List.cons_append, List.cons_prefix_cons, List.cons_prefix_cons]
      rintro ⟨-, rfl, -⟩
      exact hcommand h

/-- A chunk that begins with no comment leader. A point alone is one as well. -/
theorem isComment_eq_false {m : Text} (hpoint : m ≠ ['.'])
    (h : ∀ leader ∈ commentLeaders, ¬ leader <+: m) : isComment m = false := by
  have hany : commentLeaders.any (·.isPrefixOf m) = false := by
    rw [List.any_eq_false]
    intro leader hleader
    rw [List.isPrefixOf_iff_prefix]
    exact h leader hleader
  rw [isComment, hany, Bool.or_false, beq_eq_false_iff_ne]
  exact hpoint

/-- A word at the start of a line makes the line no comment.

**Proof sketch.** Comments begin with a point or with one of a few leaders. A word with none of the
escapes that begin a comment has none of these at its start. -/
theorem Word.isComment_source (w : Word) (h : w.source.head? ≠ some '.') :
    isComment w.source = false := by
  have hescape : ∀ command ∈ ['"', '#'], ¬ ['\\', command] <+: w.source :=
    fun command hcommand => not_isPrefix_items w.items hcommand
  have hapostrophe : ¬ ['\'', '\\', '"'] <+: w.source := by
    obtain ⟨i, items, heq⟩ := List.exists_cons_of_ne_nil w.ne_nil
    unfold source
    rw [heq, List.flatMap_cons]
    rcases i.exists_source with ⟨c, hsource, -⟩ | ⟨command, rest, hsource, -⟩
    · rw [hsource, List.singleton_append, List.cons_prefix_cons]
      exact fun h => not_isPrefix_items items (by decide) h.2
    · rw [hsource, List.cons_append, List.cons_prefix_cons]
      exact fun h => absurd h.1 (by decide)
  have hpoint : ∀ u, ¬ '.' :: u <+: w.source := by
    rintro u ⟨rest, heq⟩
    rw [← heq] at h
    exact h rfl
  refine isComment_eq_false ?_ ?_
  · intro heq
    exact hpoint [] (heq ▸ List.prefix_refl _)
  · intro leader hleader
    simp only [commentLeaders, List.mem_cons, List.not_mem_nil, or_false] at hleader
    rcases hleader with rfl | rfl | rfl | rfl
    · exact hescape '"' (by decide)
    · exact hpoint _
    · exact hapostrophe
    · exact hescape '#' (by decide)

/-- A blank chunk makes its line no comment. All leaders of comments begin with ink. -/
theorem isComment_blank {c : Char} {u : Text} (hc : isSpace c = true) :
    isComment (c :: u) = false := by
  have hne : ∀ d, isSpace d = false → ∀ v, ¬ d :: v <+: c :: u := by
    rintro d hd v hleads
    rw [List.cons_prefix_cons] at hleads
    rw [hleads.1, hc] at hd
    exact Bool.noConfusion hd
  refine isComment_eq_false ?_ ?_
  · intro heq
    exact hne '.' rfl [] (heq ▸ List.prefix_refl _)
  · intro leader hleader
    simp only [commentLeaders, List.mem_cons, List.not_mem_nil, or_false] at hleader
    rcases hleader with rfl | rfl | rfl | rfl <;> exact hne _ rfl _

/-- The first chunk of a line is no comment. It is the first word, or the blanks before it: neither
begins with a point, and no leader of a comment is at the start of either. -/
theorem isComment_of_splitBy_append {lead w rest m : Text} {ms : List Text}
    (hlead : lead.isBlank = true) (hw : w ≠ []) (hink : w.isInk = true)
    (hrest : ∀ d ∈ rest.head?, isSpace d = true) (hpoint : (lead ++ (w ++ rest)).head? ≠ some '.')
    (hword : w.head? ≠ some '.' → isComment w = false)
    (h : (lead ++ (w ++ rest)).splitBy sameChunk = m :: ms) :
    m.head? ≠ some '.' ∧ isComment m = false := by
  have hne : m ≠ [] := by
    refine List.ne_nil_of_mem_splitBy (r := sameChunk) (l := lead ++ (w ++ rest)) ?_
    rw [h]
    exact List.mem_cons_self
  have hhead : m.head? = (lead ++ (w ++ rest)).head? := by
    rw [← List.flatten_splitBy sameChunk (lead ++ (w ++ rest)), h, List.flatten_cons,
      List.head?_append_of_ne_nil _ hne]
  have hfirst : m.head? ≠ some '.' := hhead ▸ hpoint
  refine ⟨hfirst, ?_⟩
  cases lead with
  | nil =>
    -- the line begins with its first word
    rw [List.nil_append, splitBy_ink_append hw hink hrest] at h
    obtain rfl := (List.cons.inj h).1
    exact hword hfirst
  | cons c u =>
    obtain ⟨d, v, rfl⟩ := List.exists_cons_of_ne_nil hne
    obtain rfl : d = c := Option.some.inj hhead
    exact isComment_blank (Text.isBlank_iff.mp hlead d List.mem_cons_self)

/-! ## Programs -/

namespace Line

/-- The first chunk of a line is no comment. -/
theorem isComment_of_splitBy (l : Line) {m : Text} {ms : List Text}
    (h : l.source.splitBy sameChunk = m :: ms) : m.head? ≠ some '.' ∧ isComment m = false :=
  isComment_of_splitBy_append l.lead.2.1 l.first.source_ne_nil l.first.isInk_source
    (isSpace_of_mem_head?_tail l.rest l.trail) l.head?_source l.first.isComment_source h

/-- The tokens of a line: those of its first chunk, and those of the others. -/
theorem ofLine_source (l : Line) {m : Text} {ms : List Text}
    (h : l.source.splitBy sameChunk = m :: ms) (number : Nat) :
    Token.ofLine number l.source =
      Token.ofChunk m true number 1 ++ Token.ofChunks number m.length ms :=
  Token.ofLine_of_splitBy l.isBlank_source h (l.isComment_of_splitBy h).2 number

/-- **The program of a line.** The line is cut into the chunks of its words and of the gaps, and
prose is read chunk by chunk. -/
theorem exists_program (l : Line) (isolating : Bool) (number : Nat) :
    (∃ is, program isolating (Token.ofLine number l.source) = .beginLine :: is ∧
        IsText l.meanings is) ∧
      ∀ f ∈ (feedAll isolating [] (Token.ofLine number l.source)).frames, f.EndsAtLine := by
  have hprose := l.isProse_splitBy
  rcases hsplit : l.source.splitBy sameChunk with _ | ⟨m, ms⟩
  · rw [hsplit] at hprose
    cases hprose
  · rw [hsplit] at hprose
    rw [l.ofLine_source hsplit]
    exact hprose.program_eq (l.isComment_of_splitBy hsplit).1 number 1 m.length

end Line

/-- **The program of lines of prose**, and of other lines after them. By induction on the lines:
each is read by itself, as nothing of it is open at its end. -/
theorem exists_program_ofLines (isolating : Bool) (ls : List Line) (number : Nat)
    (more : List Text) :
    ∃ is, IsLines (ls.flatMap Line.meanings) is ∧
      program isolating (Token.ofLines number (ls.map Line.source ++ more)) =
        is ++ program isolating (Token.ofLines (number + ls.length) more) := by
  induction ls generalizing number with
  | nil => exact ⟨[], IsLines.nil, rfl⟩
  | cons l ls ih =>
    obtain ⟨is, his, hmore⟩ := ih (number + 1)
    obtain ⟨⟨js, hjs, htext⟩, hends⟩ := l.exists_program isolating number
    refine ⟨.beginLine :: js ++ is, IsLines.line htext his, ?_⟩
    have hlength : number + 1 + ls.length = number + (l :: ls).length := by
      rw [List.length_cons]
      omega
    rw [List.map_cons, List.cons_append, program_ofLines _ _ _ hends, hjs, hmore, hlength,
      List.append_assoc]

/-- What is written for lines, each with a line feed at its end. -/
def source (ls : List Line) : Text :=
  (ls.map Line.source).flatMap fun l => l ++ ['\n']

/-- The lines that are read are those that were written. -/
theorem splitLines_source (ls : List Line) (t : Text) :
    (source ls ++ t).splitLines = ls.map Line.source ++ t.splitLines := by
  apply Text.splitLines_flatMap_append
  intro line hline
  obtain ⟨l, -, rfl⟩ := List.mem_map.mp hline
  exact l.isLineEnd_of_mem

end Prose

end Manpage
