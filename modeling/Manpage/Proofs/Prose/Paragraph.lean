import Manpage.Proofs.Page.Greedy
import Manpage.Proofs.Program.Request
import Manpage.Proofs.Prose.Line

/-!
# Paragraphs

A paragraph has lines of plain words, which stand for themselves. Between two paragraphs there are
blank lines, the paragraph macro, or the macro for empty lines.

## Main definitions

* `Manpage.Prose.Paragraph` — lines of words without escapes.
* `Manpage.Prose.Separation` — what stands between two paragraphs.
* `Manpage.Prose.Separation.asked`, `Manpage.Prose.Separation.read?` — the empty lines that are
  asked for, and those that are read.

## Main results

* `Manpage.Prose.Paragraph.meanings_eq` — the words of a paragraph stand for themselves.
* `Manpage.Prose.Separation.read?_eq_asked` — below 2^53, the number that is asked for is read.
* `Manpage.Prose.Separation.exists_program` — the program of a separation.
-/

namespace Manpage.Prose

/-! ## Paragraphs -/

/-- A paragraph: lines of words without escapes, one at least. -/
structure Paragraph where
  lines : List Line
  ne_nil : lines ≠ []
  plain : ∀ l ∈ lines, '\\' ∉ l.source

/-- A part of a word without a backslash stands for itself. -/
theorem Item.meaning_eq (i : Item) (h : '\\' ∉ i.source) : i.meaning = i.source := by
  cases i with
  | plain c _ => rfl
  | apostrophe bracketed =>
    refine absurd ?_ h
    cases bracketed <;> exact List.mem_cons_self
  | _ => exact absurd List.mem_cons_self h

/-- A word without a backslash stands for itself. -/
theorem Word.meaning_eq (w : Word) (h : '\\' ∉ w.source) : w.meaning = w.source := by
  unfold meaning source at *
  apply List.flatMap_congr
  intro i hi
  refine i.meaning_eq fun hmem => h ?_
  exact List.mem_flatMap.mpr ⟨i, hi, hmem⟩

/-- What is written for a word is written on its line. -/
theorem Line.mem_source_of_mem_words (l : Line) {w : Word} (hw : w ∈ l.words) {c : Char}
    (hc : c ∈ w.source) : c ∈ l.source := by
  simp only [source, tail, List.mem_append, List.mem_flatMap]
  rcases List.mem_cons.mp hw with rfl | hw
  · exact Or.inr (Or.inl hc)
  · obtain ⟨p, hp, rfl⟩ := List.mem_map.mp hw
    exact Or.inr (Or.inr (Or.inl ⟨p, hp, Or.inr hc⟩))

namespace Paragraph

/-- What is written for a paragraph. -/
def source (p : Paragraph) : Text :=
  Prose.source p.lines

/-- The words of a paragraph, as they are written. -/
def words (p : Paragraph) : List Text :=
  p.lines.flatMap fun l => l.words.map Word.source

/-- The words of a paragraph set on lines of a given width. -/
def fill (p : Paragraph) (width : Nat) : List Text :=
  Text.fill 0 width p.words

/-- **The words of a paragraph stand for themselves.** -/
theorem meanings_eq (p : Paragraph) : p.lines.flatMap Line.meanings = p.words := by
  unfold words Line.meanings
  apply List.flatMap_congr
  intro l hl
  apply List.map_congr_left
  intro w hw
  exact w.meaning_eq fun hmem => p.plain l hl (l.mem_source_of_mem_words hw hmem)

/-- The words of a paragraph are not empty. -/
theorem ne_nil_of_mem_words (p : Paragraph) {w : Text} (h : w ∈ p.words) : w ≠ [] := by
  obtain ⟨l, -, hw⟩ := List.mem_flatMap.mp h
  obtain ⟨v, -, rfl⟩ := List.mem_map.mp hw
  exact v.source_ne_nil

/-- A paragraph has a word: it has a line, and each line has one. -/
theorem words_ne_nil (p : Paragraph) : p.words ≠ [] := by
  obtain ⟨l, ls, heq⟩ := List.exists_cons_of_ne_nil p.ne_nil
  simp [words, heq, Line.words]

/-- The paragraph of a single word. -/
def ofWord (w : Word) (hpoint : w.source.head? ≠ some '.') (hplain : '\\' ∉ w.source) :
    Paragraph where
  lines := [⟨⟨[], rfl, by simp⟩, w, [], ⟨[], rfl, by simp⟩, hpoint⟩]
  ne_nil := by simp
  plain := by simpa [Line.source, Line.tail] using hplain

end Paragraph

/-! ## Separations -/

/-- What stands between two paragraphs: blank lines, one at least, the paragraph macro by any of its
names, or the macro for empty lines with a positive number. -/
inductive Separation where
  | blankLines (first : Gap) (more : List Gap)
  | paragraph (name : Text) (hname : name ∈ [['.', 'P', 'P'], ['.', 'L', 'P'], ['.', 'P']])
  | skip (count : Nat) (hcount : 0 < count)

namespace Separation

/-- The lines of a separation. -/
def lines : Separation → List Text
  | blankLines first more => first.1 :: more.map Subtype.val
  | paragraph name _ => [name]
  | skip count _ => [skipLine count]

/-- What is written for a separation. -/
def source (sep : Separation) : Text :=
  sep.lines.flatMap fun l => l ++ ['\n']

/-- The number of empty lines that a separation asks for. -/
def asked : Separation → Nat
  | blankLines _ _ => 1
  | paragraph _ _ => 1
  | skip count _ => count

/-- The number of empty lines as it is read; none where it is too large for a double. -/
def read? : Separation → Option Nat
  | blankLines _ _ => some 1
  | paragraph _ _ => some 1
  | skip count _ => readWhole? count

/-- **Numbers below 2^53 are read as they are asked for.** A whole number of that size is a double,
and is not rounded. -/
theorem read?_eq_asked (sep : Separation) (h : sep.asked < 2 ^ 53) :
    sep.read? = some sep.asked := by
  cases sep with
  | blankLines => rfl
  | paragraph => rfl
  | skip count hcount =>
    have hread := Numeral.toInt?_whole_of_lt (n := count) h
    show readWhole? count = some count
    rw [readWhole?, hread]
    rfl

/-- The effects of the lines of a separation. -/
def effects : Separation → List (List Instr)
  | blankLines _ more => [.emptyLine] :: more.map fun _ => [.emptyLine]
  | paragraph _ _ => [[.setIndent 0, .plainStyle, .blankLine]]
  | skip count _ => [skipInstrs (readWhole? count)]

/-- **The program of a separation**, and of other lines after it. Each of its lines is a request,
with the effect that the separation says. -/
theorem exists_program (sep : Separation) (isolating : Bool) (number : Nat) (more : List Text) :
    ∃ is, IsRequests sep.effects is ∧
      program isolating (Token.ofLines number (sep.lines ++ more)) =
        is ++ program isolating (Token.ofLines (number + sep.lines.length) more) := by
  apply exists_program_requests
  cases sep with
  | blankLines first gaps =>
    refine List.Forall₂.cons (isRequest_blank first.2.1) ?_
    rw [List.forall₂_map_left_iff, List.forall₂_map_right_iff, List.forall₂_same]
    exact fun gap _ => isRequest_blank gap.2.1
  | paragraph name hname => exact List.Forall₂.cons (isRequest_paragraph hname) List.Forall₂.nil
  | skip count hcount => exact List.Forall₂.cons (isRequest_skip hcount) List.Forall₂.nil

/-- No line ends within a line of a separation. Gaps hold none by themselves, and names and numbers
are of ink. -/
theorem isLineEnd_of_mem (sep : Separation) {l : Text} (hl : l ∈ sep.lines) :
    ∀ c ∈ l, isLineEnd c = false := by
  cases sep with
  | blankLines first more =>
    rcases List.mem_cons.mp hl with rfl | hl
    · exact first.2.2
    · obtain ⟨gap, -, rfl⟩ := List.mem_map.mp hl
      exact gap.2.2
  | paragraph name hname =>
    obtain rfl := List.mem_singleton.mp hl
    simp only [List.mem_cons, List.not_mem_nil, or_false] at hname
    rcases hname with rfl | rfl | rfl <;> exact Text.isLineEnd_of_isInk rfl
  | skip count _ =>
    obtain rfl := List.mem_singleton.mp hl
    intro c hc
    rcases List.mem_append.mp hc with hc | hc
    · exact Text.isLineEnd_of_isInk (w := ['.', 's', 'p']) (by decide) c hc
    · rcases List.mem_cons.mp hc with rfl | hc
      · decide
      · exact Text.isLineEnd_of_isInk (isInk_ofNat count) c hc

/-- The lines that are read are those that were written. -/
theorem splitLines_source (sep : Separation) (t : Text) :
    (sep.source ++ t).splitLines = sep.lines ++ t.splitLines :=
  Text.splitLines_flatMap_append (fun _ hl => sep.isLineEnd_of_mem hl) t

/-- A separation asks for one empty line at least. -/
theorem asked_pos (sep : Separation) : 0 < sep.asked := by
  cases sep with
  | blankLines => exact Nat.one_pos
  | paragraph => exact Nat.one_pos
  | skip count hcount => exact hcount

end Separation

end Manpage.Prose
