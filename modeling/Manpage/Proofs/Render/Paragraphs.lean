import Manpage.Proofs.Machine.Spacing
import Manpage.Proofs.Prose.Paragraph
import Manpage.Proofs.Render.Prose

/-!
# Rendered paragraphs

Two paragraphs with a separation between them are rendered as their words, set on lines, with empty
lines between them. There are as many as the separation asks for where the last line of the first
paragraph has room for a space. Where it is full, the space that follows its last word has ended it
already, and the separation finds an empty line and leaves nothing.

## Main definitions

* `Manpage.Prose.Paragraph.isFull` — a paragraph whose last line is full.
* `Manpage.Prose.spacedText` — the text of two paragraphs with empty lines between them.

## Main results

* `Manpage.render_separated` — what two paragraphs are rendered as.
* `Manpage.render_eq_spacedText_iff` — when there are as many empty lines as are asked for.
* `Manpage.render_eq_spacedText_iff_of_lt` — the same for numbers that a double holds.
-/

namespace Manpage

variable {c : Machine.Context} {m : Machine} {ls base : List Text} {l : Text} {is js : List Instr}

namespace Prose

/-! ## The effect of a separation -/

/-- Further blank lines leave nothing. By induction on them: where no word was set since the last
one, an empty line starts the line again. -/
theorem fills_emptyLines {gaps : List Gap}
    (h : IsRequests (gaps.map fun _ => [.emptyLine]) is) (hm : m.Fills c base []) :
    (m.exec is).Fills c base [] := by
  induction gaps generalizing m is with
  | nil =>
    cases h
    exact hm
  | cons gap gaps ih =>
    obtain ⟨m', js, hm', hjs, heq⟩ := hm.requests h
    rw [heq]
    exact ih hjs hm'.emptyLine_nil

/-- **A separation behind words** leaves the empty lines that are read, unless the latest line is
full.

**Proof sketch.** By cases on the separation. Empty lines leave one empty line, however many they
are, a paragraph macro does too, and a request leaves as many as it asks for. -/
theorem Separation.fills (sep : Separation) {count : Nat} (hread : sep.read? = some count)
    (his : IsRequests sep.effects is) (hindent : c.settings.indent = 0)
    (hstyle : c.settings.style = .plain) (hm : m.Fills c [] (l :: ls)) :
    (m.exec is).Fills c (Text.spaced c.width count (l :: ls)) [] := by
  cases sep with
  | blankLines first more =>
    obtain rfl := Option.some.inj hread
    obtain ⟨m', js, hm', hjs, heq⟩ := hm.requests his
    rw [heq]
    exact fills_emptyLines hjs hm'.emptyLine
  | paragraph name _ =>
    obtain rfl := Option.some.inj hread
    obtain ⟨m', js, hm', hjs, heq⟩ := hm.requests his
    cases hjs
    rw [heq]
    exact hm'.paragraph hindent hstyle
  | skip asked _ =>
    change readWhole? asked = some count at hread
    rw [effects, hread] at his
    obtain ⟨m', js, hm', hjs, heq⟩ := hm.requests his
    cases hjs
    rw [heq]
    exact hm'.skipLines count

/-- The instructions of a separation cannot fail where its number can be read. By cases on the
separation: it asks for empty lines, for a paragraph, or for a number of lines. -/
theorem Separation.isPlain (sep : Separation) {count : Nat} (hread : sep.read? = some count)
    (his : IsRequests sep.effects is) : ∀ i ∈ is, i.isPlain = true := by
  refine his.isPlain ?_
  cases sep with
  | blankLines first more =>
    intro e he i hi
    have hempty : e = [.emptyLine] := by
      rcases List.mem_cons.mp he with rfl | he
      · rfl
      · obtain ⟨-, -, rfl⟩ := List.mem_map.mp he
        rfl
    rw [hempty, List.mem_singleton] at hi
    rw [hi]
    rfl
  | paragraph name _ => simp [effects, Instr.isPlain, Instr.isSafe, Instr.setsFont]
  | skip asked _ =>
    change readWhole? asked = some count at hread
    rw [effects, hread]
    simp [skipInstrs, Instr.isPlain, Instr.isSafe, Instr.setsFont]

/-- A number that is too large for a double is a fault. Only a request for empty lines has a number;
its fault comes behind records and before anything else. -/
theorem Separation.exists_fault (sep : Separation) (hread : sep.read? = none)
    (his : IsRequests sep.effects is) :
    ∃ records after, (∀ i ∈ records, i.isSafe = true) ∧
      is = records ++ .fault .numberOverflow :: after := by
  cases sep with
  | blankLines => exact absurd hread (by simp [read?])
  | paragraph => exact absurd hread (by simp [read?])
  | skip asked _ =>
    change readWhole? asked = none at hread
    rw [effects, hread] at his
    cases his with
    | @line records _ js _ hrecords hjs =>
      refine ⟨.beginLine :: records, [.skipLines defaultSkip] ++ js, ?_, by simp [skipInstrs]⟩
      intro i hi
      rcases List.mem_cons.mp hi with rfl | hi
      · rfl
      · exact Instr.isSafe_of_isPlain (Instr.isPlain_of_isRecord (hrecords i hi))

/-! ## The text of two paragraphs -/

/-- The last line of a paragraph is full: it has no room for a space. -/
def Paragraph.isFull (p : Paragraph) (width : Nat) : Bool :=
  (p.fill width).getLast?.any fun l => width ≤ l.length

/-- The text of two paragraphs with so many empty lines between them. -/
def spacedText (p q : Paragraph) (width count : Nat) : Text :=
  Text.join ['\n'] (p.fill width ++ List.replicate count [] ++ q.fill width)

/-- The words of a paragraph, set on lines one by one, make the lines of its fill: none of them is
empty, so that none is left out. -/
theorem Paragraph.addWords_eq (p : Paragraph) (width : Nat) :
    (Text.addWords 0 width [] p.words).reverse = p.fill width := by
  have hfilter : (p.words.filter fun w => w ≠ []) = p.words := by
    rw [List.filter_eq_self]
    intro w hw
    simpa using p.ne_nil_of_mem_words hw
  rw [Text.addWords, hfilter]
  rfl

/-- The words of a paragraph make at least one line, since a paragraph has a word and no word is
empty. -/
theorem Paragraph.addWords_ne_nil (p : Paragraph) (width : Nat) :
    Text.addWords 0 width [] p.words ≠ [] := by
  obtain ⟨w, ws, hwords⟩ := List.exists_cons_of_ne_nil p.words_ne_nil
  have hw : w ≠ [] := p.ne_nil_of_mem_words (hwords ▸ List.mem_cons_self)
  rw [hwords, Text.addWords_cons _ _ _ _ hw]
  have hmore : ∀ (ws lines : List Text), lines ≠ [] → Text.addWords 0 width lines ws ≠ [] := by
    intro ws
    induction ws with
    | nil => exact fun _ hne => hne
    | cons v ws ih =>
      intro lines hne
      by_cases hv : v = []
      · rw [hv, Text.addWords_cons_nil]
        exact ih lines hne
      · rw [Text.addWords_cons _ _ _ _ hv]
        exact ih _ (Text.addWord_ne_nil 0 width lines v)
  exact hmore ws _ (Text.addWord_ne_nil 0 width [] w)

/-- The lines of a paragraph with empty lines behind them, in order: the fill, and the empty lines
unless the last line is full. -/
theorem Paragraph.reverse_spaced (p : Paragraph) (width count : Nat) :
    (Text.spaced width count (Text.addWords 0 width [] p.words)).reverse =
      p.fill width ++ List.replicate (if p.isFull width then 0 else count) [] := by
  obtain ⟨l, ls, heq⟩ := List.exists_cons_of_ne_nil (p.addWords_ne_nil width)
  have hfill := p.addWords_eq width
  rw [heq] at hfill ⊢
  have hfull : p.isFull width = decide (width ≤ l.length) := by
    rw [Paragraph.isFull, ← hfill]
    simp
  by_cases hroom : l.length < width
  · have hnot : ¬ p.isFull width = true := by
      rw [hfull, decide_eq_true_eq]
      omega
    rw [Text.spaced, if_pos hroom, if_neg hnot, List.reverse_append, List.reverse_replicate, hfill]
  · have hyes : p.isFull width = true := by
      rw [hfull, decide_eq_true_eq]
      omega
    rw [Text.spaced, if_neg hroom, if_pos hyes, List.replicate_zero, List.append_nil, hfill]

/-- Different numbers of empty lines make different texts. Each empty line makes the text longer by
one line feed. -/
theorem spacedText_inj {p q : Paragraph} {width a b : Nat} :
    spacedText p q width a = spacedText p q width b ↔ a = b := by
  constructor
  · intro h
    have hlength : ∀ n, (spacedText p q width n).length + 1 =
        (p.fill width).flatten.length + (q.fill width).flatten.length +
          (p.fill width).length + n + (q.fill width).length := by
      intro n
      have hne : p.fill width ++ List.replicate n [] ++ q.fill width ≠ [] := by
        rw [← p.addWords_eq]
        simp [p.addWords_ne_nil]
      rw [spacedText, Text.length_join hne]
      simp
      omega
    have ha := hlength a
    have hb := hlength b
    rw [h] at ha
    omega
  · rintro rfl
    rfl

/-- The empty lines that are left, of so many that are read, are those that are asked for just if
none is lost on a full line: a separation asks for one at least. -/
theorem Separation.left_eq_asked_iff (sep : Separation) (full : Bool) (count : Nat) :
    (if full then 0 else count) = sep.asked ↔ full = false ∧ count = sep.asked := by
  have hpos := sep.asked_pos
  cases full with
  | false => simp
  | true =>
    simp only [if_true, Bool.true_eq_false, false_and, iff_false]
    omega

/-! ## Programs of paragraphs -/

/-- The program of two paragraphs with a separation between them.

**Proof sketch.** The source consists of the lines of all three, and each of them leaves no frame
that the next one would come to. So the programs stand one after the other. -/
theorem exists_program_separated (p q : Paragraph) (sep : Separation) :
    ∃ is es js, IsLines p.words is ∧ IsRequests sep.effects es ∧ IsLines q.words js ∧
      program false (Token.ofSource (p.source ++ sep.source ++ q.source)) = is ++ (es ++ js) := by
  have hlines : (p.source ++ sep.source ++ q.source).splitLines =
      p.lines.map Line.source ++ (sep.lines ++ (q.lines.map Line.source ++ [])) := by
    have hlast := splitLines_source q.lines []
    rw [List.append_nil] at hlast
    rw [Paragraph.source, Paragraph.source, List.append_assoc, splitLines_source,
      sep.splitLines_source, hlast]
    rfl
  obtain ⟨is, his, hp⟩ := exists_program_ofLines false p.lines 1
    (sep.lines ++ (q.lines.map Line.source ++ []))
  obtain ⟨es, hes, hsep⟩ := sep.exists_program false (1 + p.lines.length)
    (q.lines.map Line.source ++ [])
  obtain ⟨js, hjs, hq⟩ := exists_program_ofLines false q.lines
    (1 + p.lines.length + sep.lines.length) []
  rw [p.meanings_eq] at his
  rw [q.meanings_eq] at hjs
  refine ⟨is, es, js, his, hes, hjs, ?_⟩
  rw [Token.ofSource, hlines, hp, hsep, hq]
  simp [Token.ofLines, program, programFrom, finish]

end Prose

/-! ## Two paragraphs -/

open Prose

/-- **Two paragraphs** with a separation between them are rendered as their words, set on lines,
with the empty lines between them that are read; but there are none where the last line of the
first paragraph is full. A number of empty lines that is too large for a double is a fault.

**Proof sketch.** The machine sets the words of the first paragraph, and is left on a line with a
space at its end, or on a fresh line where there was no room for the space. The separation leaves
empty lines in the first case and none in the second, and a fresh line in both, so that the words of
the second paragraph are set as on an empty page. -/
theorem render_separated (p q : Paragraph) (sep : Separation) (width : Int) :
    render (p.source ++ sep.source ++ q.source) none width =
      match sep.read? with
      | none => .error .numberOverflow
      | some count => .ok (spacedText p q (max 1 width).toNat
          (if p.isFull (max 1 width).toNat then 0 else count)) := by
  obtain ⟨is, es, js, his, hes, hjs, hprogram⟩ := exists_program_separated p q sep
  cases hread : sep.read? with
  | none =>
    obtain ⟨records, after, hrecords, rfl⟩ := sep.exists_fault hread hes
    have hsafe : ∀ i ∈ is ++ records, i.isSafe = true := by
      intro i hi
      rcases List.mem_append.mp hi with hi | hi
      · exact Instr.isSafe_of_isPlain (his.isPlain i hi)
      · exact hrecords i hi
    -- everything before the fault is run, and the fault is the end of it
    have hassoc : is ++ (records ++ .fault .numberOverflow :: after ++ js) =
        is ++ records ++ .fault .numberOverflow :: (after ++ js) := by
      simp only [List.append_assoc, List.cons_append]
    have hrun : interpretSource (p.source ++ sep.source ++ q.source) none width =
        (Machine.start width).run (program false
          (Token.ofSource (p.source ++ sep.source ++ q.source))) := rfl
    rw [render_eq_error_iff, hrun, hprogram, hassoc, Machine.run_append hsafe]
    rfl
  | some count =>
    have hplain : ∀ i ∈ is ++ (es ++ js), i.isPlain = true := by
      intro i hi
      rcases List.mem_append.mp hi with hi | hi
      · exact his.isPlain i hi
      · rcases List.mem_append.mp hi with hi | hi
        · exact sep.isPlain hread hes i hi
        · exact hjs.isPlain i hi
    obtain ⟨l, ls, hfirst⟩ := List.exists_cons_of_ne_nil (p.addWords_ne_nil (max 1 width).toNat)
    obtain ⟨l', ls', hlast⟩ := List.exists_cons_of_ne_nil (q.addWords_ne_nil (max 1 width).toNat)
    -- the first paragraph is filled, then the separation, then the second paragraph
    have hp := (Machine.start_fills width).prose his
    simp only [Machine.Context.padding_ofWidth, Machine.Context.width_ofWidth, hfirst] at hp
    have hsep := sep.fills hread hes rfl rfl hp
    have hq := hsep.prose hjs
    simp only [Machine.Context.padding_ofWidth, Machine.Context.width_ofWidth, hlast] at hq
    rw [← Machine.exec_append, ← Machine.exec_append] at hq
    have htext := render_eq_of_fills hprogram hplain hq
    obtain ⟨s, -, hready⟩ := hq.exists_sheet
    rw [htext, hready.rdropWhile_eq, ← hlast, ← hfirst, List.reverse_append, p.reverse_spaced,
      q.addWords_eq]
    rfl

/-- **The empty lines that are asked for.** Two paragraphs are rendered with as many empty lines
between them as the separation asks for just when the last line of the first paragraph is not full,
and the number of empty lines is read as it is written. -/
theorem render_eq_spacedText_iff (p q : Paragraph) (sep : Separation) (width : Int) :
    render (p.source ++ sep.source ++ q.source) none width =
        .ok (spacedText p q (max 1 width).toNat sep.asked) ↔
      p.isFull (max 1 width).toNat = false ∧ sep.read? = some sep.asked := by
  rw [render_separated]
  cases hread : sep.read? with
  | none => simp
  | some count =>
    simp only [Except.ok.injEq, spacedText_inj, Option.some.injEq, sep.left_eq_asked_iff]

/-- A paragraph whose last line is full is followed by no empty line: a word of four characters on
lines of four columns. -/
theorem not_forall_render_eq_spacedText :
    ¬ ∀ (p q : Paragraph) (sep : Separation) (width : Int),
      render (p.source ++ sep.source ++ q.source) none width =
        .ok (spacedText p q (max 1 width).toNat sep.asked) := by
  intro h
  let a : Item := .plain ⟨'a', rfl⟩ (by decide)
  let b : Item := .plain ⟨'b', rfl⟩ (by decide)
  let p : Paragraph := .ofWord ⟨[a, a, a, a], by simp⟩ (by decide) (by decide)
  let q : Paragraph := .ofWord ⟨[b, b], by simp⟩ (by decide) (by decide)
  let sep : Separation := .blankLines ⟨[], rfl, by simp⟩ []
  have hsource : p.source ++ sep.source ++ q.source = "aaaa\n\nbb\n".toList := by decide
  have hrender : render "aaaa\n\nbb\n".toList none 4 = .ok "aaaa\nbb".toList := by cbv
  have hasked : spacedText p q (max 1 (4 : Int)).toNat sep.asked = "aaaa\n\nbb".toList := by decide
  have hclaim := h p q sep 4
  rw [hsource, hrender, hasked] at hclaim
  exact absurd (Except.ok.inj hclaim) (by decide)

/-- **Numbers that a double holds.** Below 2^53 empty lines are read as they are asked for, so that
nothing but a full line can lose them. -/
theorem render_eq_spacedText_iff_of_lt (p q : Paragraph) (sep : Separation) (width : Int)
    (hasked : sep.asked < 2 ^ 53) :
    render (p.source ++ sep.source ++ q.source) none width =
        .ok (spacedText p q (max 1 width).toNat sep.asked) ↔
      p.isFull (max 1 width).toNat = false := by
  rw [render_separated, sep.read?_eq_asked hasked]
  simp only [Except.ok.injEq, spacedText_inj, sep.left_eq_asked_iff, and_true]

end Manpage
