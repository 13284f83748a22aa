import Manpage.Proofs.Program.Flush
import Manpage.Proofs.Program.Word

/-!
# Hidden words

Where one section is asked for, the words outside of it are not shown. A token list is compared with
another that differs from it in such words, and in columns. The frames do not look at a word that is
shown: they hand it on. So the programs of both lists are the same, apart from what no one sees.

## Main definitions

* `Manpage.sectionAfter` — the section that is current after some instructions.
* `Manpage.Instr.isMute`, `Manpage.seen` — the instructions that matter to the page.
* `Manpage.Step.Shows` — a word is read as a text to be shown.
* `Manpage.Frame.TreatsWords`, `Manpage.ReadsWords` — the ways in which frames and stacks of frames
  read words, whatever these say.
* `Manpage.Step.LooksLike` — steps that are the same as seen from a section.
* `Manpage.AgreeOutside` — token lists that differ in hidden words and in columns alone.

## Main results

* `Manpage.feed_word` — how a word is read does not depend on what it says, if it is shown.
* `Manpage.feed_looksLike` — one token more.
* `Manpage.AgreeOutside.seen_eq` — hidden words and columns do not reach what is seen of a program.
-/

namespace Manpage

variable {isolating : Bool} {s : Section} {current : Option Section} {t u : Token} {f : Frame}
  {stack stack' : List Frame} {ts us : List Token} {i : Instr} {is js : List Instr}

/-! ## Sections -/

/-- The section that is current after an instruction. -/
def Instr.sectionAfter (current : Option Section) : Instr → Option Section
  | enterSection s => some s
  | _ => current

/-- The section that is current after some instructions. -/
def sectionAfter (current : Option Section) (is : List Instr) : Option Section :=
  is.foldl Instr.sectionAfter current

/-- An instruction leads to the same section without its columns. -/
theorem Instr.sectionAfter_flush (current : Option Section) (i : Instr) :
    i.flush.sectionAfter current = i.sectionAfter current := by
  cases i <;> rfl

/-- Instructions lead to the same section without their columns. -/
theorem sectionAfter_map_flush (current : Option Section) (is : List Instr) :
    sectionAfter current (is.map Instr.flush) = sectionAfter current is := by
  rw [sectionAfter, List.foldl_map]
  simp only [Instr.sectionAfter_flush, sectionAfter]

/-! ## What is seen of a program -/

/-- The page takes no notice of the instruction when the section is asked for: it records something,
or it shows a text while the section is not the current one. -/
def Instr.isMute (s : Section) (current : Option Section) (i : Instr) : Bool :=
  i.isRecord || (i.isEmit && current != some s)

/-- An instruction is mute without its columns just if it is with them. -/
theorem Instr.isMute_flush (s : Section) (current : Option Section) (i : Instr) :
    i.flush.isMute s current = i.isMute s current := by
  cases i <;> rfl

/-- The instructions that are not mute. -/
def seen (s : Section) : Option Section → List Instr → List Instr
  | _, [] => []
  | current, i :: more =>
    if i.isMute s current then seen s (i.sectionAfter current) more
    else i :: seen s (i.sectionAfter current) more

/-- What is seen of two programs is what is seen of the first, and then of the second in the section
where the first ends. -/
theorem seen_append (s : Section) (current : Option Section) (is js : List Instr) :
    seen s current (is ++ js) = seen s current is ++ seen s (sectionAfter current is) js := by
  induction is generalizing current with
  | nil => rfl
  | cons i is ih =>
    simp only [List.cons_append, seen, ih]
    split <;> rfl

/-- What is seen of a program without its columns is what is seen of it with them, without these. -/
theorem seen_map_flush (s : Section) (current : Option Section) (is : List Instr) :
    seen s current (is.map Instr.flush) = (seen s current is).map Instr.flush := by
  induction is generalizing current with
  | nil => rfl
  | cons i is ih =>
    simp only [List.map_cons, seen, Instr.isMute_flush, Instr.sectionAfter_flush, ih]
    split <;> rfl

/-- Of instructions that agree up to columns, the same are seen. -/
theorem seen_congr (h : is.map Instr.flush = js.map Instr.flush) (s : Section)
    (current : Option Section) :
    (seen s current is).map Instr.flush = (seen s current js).map Instr.flush := by
  rw [← seen_map_flush, ← seen_map_flush, h]

/-- A word that is shown outside of the section is not seen. -/
theorem seen_append_shown (h : sectionAfter current is ≠ some s) (t : Token) :
    seen s current (is ++ [.consume t, .emit t.value]) = seen s current is := by
  rw [seen_append]
  simp [seen, Instr.isMute, Instr.isRecord, Instr.isEmit, Instr.sectionAfter, h]

/-! ## Words -/

/-- The step that shows the word after some instructions. -/
def Step.showing (out : List Instr) (frames : List Frame) (t : Token) : Step :=
  ⟨out ++ [.consume t, .emit t.value], frames⟩

/-- The word is read as a text to be shown. -/
def Step.Shows (r : Step) (t : Token) : Prop :=
  t.kind = .word ∧ r.out.getLast? = some (.emit t.value)

/-- Whether a step shows a word can be computed from its last instruction. -/
instance (r : Step) (t : Token) : Decidable (r.Shows t) :=
  inferInstanceAs (Decidable (_ ∧ _))

namespace Step

/-- A step that shows a word still does so above another frame. -/
theorem showing_above (out : List Instr) (frames : List Frame) (t : Token) (f : Frame) :
    (showing out frames t).above f = showing out (frames ++ [f]) t := rfl

/-- A word in the middle of a text is shown as it is. -/
theorem word_of_word (isolating : Bool) (h : t.kind = .word) :
    word isolating t = showing [] [] t := by
  simp only [word, h]
  rfl

/-- A word that begins a unit is shown behind the opening of a word. -/
theorem unit_of_word (isolating : Bool) (h : t.kind = .word) :
    unit isolating t = showing [.openWord] [.unit] t := by
  rw [unit, word_of_word isolating h]
  rfl

/-- A word on a line of text is shown behind the opening of a word. -/
theorem line_of_word (isolating : Bool) (h : t.kind = .word) :
    line isolating t = showing [.openWord] [.unit, .line] t := by
  have hblank : t.kind ≠ .blank := by simp [h]
  rw [line, run, if_neg hblank, unit_of_word isolating h]
  rfl

/-- A word that begins an argument is shown behind the opening of a word. -/
theorem argument_of_word (isolating : Bool) (h : t.kind = .word) :
    argument isolating t = showing [.openWord] [.unit] t := by
  have hquote : t.kind ≠ .quote := by simp [h]
  rw [argument, if_neg hquote, unit_of_word isolating h]

/-- A word among arguments is shown behind the opening of a word, and behind a space if it is not
the first. -/
theorem arguments_of_word (isolating first : Bool) (h : t.kind = .word) :
    arguments isolating first t =
      showing (if first then [.openWord] else [.space, .openWord]) [.unit, .arguments false] t := by
  rw [arguments, argument_of_word isolating h]
  cases first <;> rfl

/-- A word in a font is shown behind the opening of its style and of a word. -/
theorem inFont_of_word (isolating : Bool) (font other : Font) (h : t.kind = .word) :
    inFont isolating font other t = showing [.openStyle font, .openWord]
      [.unit, .afterwards [.closeScope], .alternating false other font] t := by
  rw [inFont, argument_of_word isolating h]
  rfl

/-- A word where nothing is open begins a line of text, and a source line if it starts one. -/
theorem top_of_word (isolating : Bool) (h : t.kind = .word) :
    top isolating t = showing (if t.startsLine then [.beginLine, .openWord] else [.openWord])
      [.unit, .line] t := by
  simp only [top, h, line_of_word isolating h]
  cases t.startsLine <;> rfl

end Step

/-- The ways in which words are read that all begin their lines, or all do not: each is shown after
the same instructions; each is passed on after the same instructions; each is kept; or an argument
is missing at each. -/
inductive Frame.TreatsWords (isolating : Bool) (f : Frame) (first : Bool) : Prop where
  | shows (out : List Instr) (frames : List Frame)
    (h : ∀ t : Token, t.kind = .word → t.startsLine = first →
      f.react isolating t = .take (Step.showing out frames t))
  | passes (out : List Instr)
    (h : ∀ t : Token, t.kind = .word → t.startsLine = first → f.react isolating t = .pass out)
  | keeps
    (h : ∀ t : Token, t.kind = .word → t.startsLine = first →
      ∃ frames, f.react isolating t = .take ⟨[.consume t], frames⟩)
  | misses
    (h : ∀ t : Token, t.kind = .word → t.startsLine = first →
      f.react isolating t = .pass [.fault (.missingArgument (some t))])

/-- At the beginning of a line, most frames are complete. A frame that waits for a line shows the
word, one that waits for a title keeps it, and an opened argument misses its end. -/
theorem Frame.treatsWords_true (isolating : Bool) (f : Frame) : f.TreatsWords isolating true := by
  cases hf : f with
  | argumentsOrLine | tag =>
    exact .shows [.openWord] [.unit, .line] fun t ht hl => by
      simp [react, ht, hl, Step.line_of_word isolating ht]
  | argument p caller =>
    by_cases hp : p = .title
    · exact .keeps fun t ht hl => ⟨[.titleLine t.value], by simp [react, ht, hl, hp]⟩
    · exact .passes (Frame.atEnd (.argument p caller)) fun t _ hl => by
        simp [react, atEnd, hl, hp]
  | openedArgument u bracketed => exact .misses fun t ht _ => by simp [react, ht]
  | afterwards out => exact .passes out fun _ _ _ => rfl
  | closingBracket => exact .passes [] fun t ht _ => by simp [react, ht]
  | _ => exact .passes f.atEnd fun t _ hl => by simp [react, atEnd, hf, hl]

/-- Within a line, what is shown or read as an argument takes the words.

**Proof sketch.** By cases on the frame: each shows the words that come to it, gathers them, or
passes them on, and in the same way for all words. What it shows before and behind the word does not
depend on it. -/
theorem Frame.treatsWords_false (isolating : Bool) (f : Frame) :
    f.TreatsWords isolating false := by
  cases f with
  | line | tag =>
    exact .shows [.openWord] [.unit, .line] fun t ht hl => by
      simp [react, ht, hl, Step.line_of_word isolating ht]
  | unit =>
    exact .shows [] [.unit] fun t ht hl => by
      simp [react, ht, hl, Step.word_of_word isolating ht, Step.showing_above]
  | quoted =>
    exact .shows [] [.quoted] fun t ht hl => by
      simp [react, ht, hl, Step.word_of_word isolating ht, Step.showing_above]
  | arguments first =>
    exact .shows _ _ fun t ht hl => by
      simp [react, ht, hl, Step.arguments_of_word isolating first ht]
      rfl
  | argumentsOrLine =>
    exact .shows [.openWord] [.unit, .arguments false] fun t ht hl => by
      simp [react, ht, hl, Step.arguments_of_word isolating true ht]
  | alternating first next other =>
    exact .shows _ _ fun t ht hl => by
      simp [react, ht, hl, Step.inFont_of_word isolating next other ht]
      rfl
  | marker =>
    exact .shows [.openWord] [.unit, .afterwards [.space]] fun t ht hl => by
      simp [react, ht, hl, Step.argument_of_word isolating ht, Step.showing_above]
  | restOfLine out => exact .keeps fun t _ hl => ⟨_, by simp [react, hl]; rfl⟩
  | argument p caller | bareArgument p caller text | quotedArgument p caller text =>
    exact .keeps fun t ht hl => ⟨_, by simp [react, ht, hl]; rfl⟩
  | titleLine text => exact .keeps fun t _ hl => ⟨_, by simp [react, hl]; rfl⟩
  | afterwards out => exact .passes out fun _ _ _ => rfl
  | escapeArgument u => exact .passes (u.settle none) fun t ht hl => by simp [react, ht, hl]
  | openedArgument u bracketed => exact .misses fun t ht _ => by simp [react, ht]
  | escape | characterName | closingBracket | fontEnd =>
    exact .passes [] fun t ht hl => by simp [react, ht, hl]

/-- Each frame treats words in one of these ways. -/
theorem Frame.treatsWords (isolating : Bool) (f : Frame) (first : Bool) :
    f.TreatsWords isolating first := by
  cases first with
  | true => exact f.treatsWords_true isolating
  | false => exact f.treatsWords_false isolating

/-- The ways in which a stack of frames reads words that all begin their lines, or all do not: each
is shown after the same instructions, and leaves the same frames; each is kept; or an argument is
missing at each. -/
inductive ReadsWords (isolating : Bool) (stack : List Frame) (first : Bool) : Prop where
  | shows (out : List Instr) (frames : List Frame)
    (h : ∀ t : Token, t.kind = .word → t.startsLine = first →
      feed isolating stack t = Step.showing out frames t)
  | keeps
    (h : ∀ t : Token, t.kind = .word → t.startsLine = first →
      ∃ out frames, feed isolating stack t = ⟨out ++ [.consume t], frames⟩)
  | misses
    (h : ∀ t : Token, t.kind = .word → t.startsLine = first →
      .fault (.missingArgument (some t)) ∈ (feed isolating stack t).out)

/-- What the frames below do with words that are passed on after some instructions. By cases on what
they do: the instructions are put before it in each. -/
theorem ReadsWords.pass {first : Bool} {out : List Instr}
    (h : ∀ t : Token, t.kind = .word → t.startsLine = first → f.react isolating t = .pass out)
    (hbelow : ReadsWords isolating stack first) : ReadsWords isolating (f :: stack) first := by
  have hfeed : ∀ t : Token, t.kind = .word → t.startsLine = first →
      feed isolating (f :: stack) t =
        ⟨out ++ (feed isolating stack t).out, (feed isolating stack t).frames⟩ := by
    intro t ht hl
    rw [feed, h t ht hl]
  cases hbelow with
  | shows out' frames hbelow =>
    refine .shows (out ++ out') frames fun t ht hl => ?_
    rw [hfeed t ht hl, hbelow t ht hl, Step.showing, Step.showing, List.append_assoc]
  | keeps hbelow =>
    refine .keeps fun t ht hl => ?_
    obtain ⟨out', frames, heq⟩ := hbelow t ht hl
    exact ⟨out ++ out', frames, by rw [hfeed t ht hl, heq, List.append_assoc]⟩
  | misses hbelow =>
    refine .misses fun t ht hl => ?_
    rw [hfeed t ht hl]
    exact List.mem_append_right out (hbelow t ht hl)

/-- Each stack of frames reads words in one of these ways.

**Proof sketch.** By induction on the stack, with the ways in which the first frame may treat words.
If it passes them on, the frames below decide. -/
theorem readsWords (isolating : Bool) (stack : List Frame) (first : Bool) :
    ReadsWords isolating stack first := by
  induction stack with
  | nil => exact .shows _ _ fun t ht hl => by rw [feed, Step.top_of_word isolating ht, hl]
  | cons f stack ih =>
    cases f.treatsWords isolating first with
    | shows out frames h =>
      refine .shows out (frames ++ stack) fun t ht hl => ?_
      rw [feed, h t ht hl]
      rfl
    | passes out h => exact ih.pass h
    | keeps h =>
      refine .keeps fun t ht hl => ?_
      obtain ⟨frames, heq⟩ := h t ht hl
      exact ⟨[], frames ++ stack, by rw [feed, heq]; rfl⟩
    | misses h =>
      refine .misses fun t ht hl => ?_
      rw [feed, h t ht hl]
      exact List.mem_append_left _ List.mem_cons_self

/-- How a word is read that is shown does not depend on what it says. Frames look at the kind and
the place of a token, and only those that keep it look at its value. -/
theorem feed_word (hshows : (feed isolating stack t).Shows t)
    (hmisses : ∀ found, .fault (.missingArgument found) ∉ (feed isolating stack t).out)
    (hkind : t.kind = u.kind) (hline : t.startsLine = u.startsLine) :
    ∃ out frames, feed isolating stack t = Step.showing out frames t ∧
      feed isolating stack u = Step.showing out frames u := by
  obtain ⟨ht, hlast⟩ := hshows
  cases readsWords isolating stack t.startsLine with
  | shows out frames h => exact ⟨out, frames, h t ht rfl, h u (hkind ▸ ht) hline.symm⟩
  | keeps h =>
    obtain ⟨out, frames, heq⟩ := h t ht rfl
    simp [heq] at hlast
  | misses h => exact absurd (h t ht rfl) (hmisses _)

/-! ## Steps that look alike -/

/-- Two steps look alike from a section: up to columns, the same is seen of them, and they leave the
same frames and the same current section. -/
structure Step.LooksLike (s : Section) (current : Option Section) (r r' : Step) : Prop where
  frames_eq : r.frames.map Frame.flush = r'.frames.map Frame.flush
  after_eq : sectionAfter current r.out = sectionAfter current r'.out
  seen_eq : (seen s current r.out).map Instr.flush = (seen s current r'.out).map Instr.flush

namespace Step.LooksLike

variable {r r' r'' : Step}

/-- Steps that look alike through a third look alike. -/
theorem trans (h : r.LooksLike s current r') (h' : r'.LooksLike s current r'') :
    r.LooksLike s current r'' :=
  ⟨h.frames_eq.trans h'.frames_eq, h.after_eq.trans h'.after_eq, h.seen_eq.trans h'.seen_eq⟩

/-- Steps that agree up to columns look alike from everywhere. -/
theorem of_flush_eq (h : r.flush = r'.flush) (s : Section) (current : Option Section) :
    r.LooksLike s current r' := by
  have hout : r.out.map Instr.flush = r'.out.map Instr.flush := congrArg Step.out h
  refine ⟨congrArg Step.frames h, ?_, seen_congr hout s current⟩
  rw [← sectionAfter_map_flush, hout, sectionAfter_map_flush]

/-- Steps that show different words look alike from a section that is not the current one. -/
theorem showing {out : List Instr} (h : sectionAfter current out ≠ some s) (frames : List Frame)
    (t u : Token) : (Step.showing out frames t).LooksLike s current (Step.showing out frames u) :=
  ⟨rfl, by simp [Step.showing, sectionAfter, Instr.sectionAfter],
    by rw [Step.showing, Step.showing, seen_append_shown h t, seen_append_shown h u]⟩

end Step.LooksLike

/-! ## Token lists -/

/-- Two tokens agree up to their columns, and up to their values where it is granted that these
differ. -/
structure Token.Agree (t u : Token) (free : Prop) : Prop where
  kind_eq : t.kind = u.kind
  line_eq : t.line = u.line
  startsLine_eq : t.startsLine = u.startsLine
  value_eq : t.value = u.value ∨ free

/-- Whether two tokens agree can be computed, if it can be whether their values are free. -/
instance (t u : Token) (free : Prop) [Decidable free] : Decidable (t.Agree u free) :=
  decidable_of_iff
    (t.kind = u.kind ∧ t.line = u.line ∧ t.startsLine = u.startsLine ∧ (t.value = u.value ∨ free))
    ⟨fun ⟨hk, hn, hl, hv⟩ => ⟨hk, hn, hl, hv⟩, fun ⟨hk, hn, hl, hv⟩ => ⟨hk, hn, hl, hv⟩⟩

/-- Two lists of tokens agree outside of a section: they have the same length, and tokens at the
same place have the same kind and stand on the same line, both first or both not. They have the same
value too, unless both are words that the program shows while the section is not the current one.
What the program does is told by the first list, from the stack of frames and the current section
that it comes upon. -/
def AgreeOutside (s : Section) : List Frame → Option Section → List Token → List Token → Prop
  | _, _, [], [] => True
  | stack, current, t :: ts, u :: us =>
    let r := feed true stack t
    let after := sectionAfter current r.out
    t.Agree u (r.Shows t ∧ after ≠ some s) ∧ AgreeOutside s r.frames after ts us
  | _, _, _, _ => False

/-- Agreement is decided token by token. -/
def AgreeOutside.decidable (s : Section) (stack : List Frame) (current : Option Section) :
    (ts us : List Token) → Decidable (AgreeOutside s stack current ts us)
  | [], [] => isTrue trivial
  | t :: ts, _ :: us =>
    let r := feed true stack t
    have := AgreeOutside.decidable s r.frames (sectionAfter current r.out) ts us
    inferInstanceAs (Decidable (_ ∧ _))
  | [], _ :: _ => isFalse id
  | _ :: _, [] => isFalse id

/-- Whether two token lists agree outside of a section can be computed by reading one of them. -/
instance (s : Section) (stack : List Frame) (current : Option Section) (ts us : List Token) :
    Decidable (AgreeOutside s stack current ts us) :=
  AgreeOutside.decidable s stack current ts us

/-- One token more: the steps look alike, unless an argument is missing.

**Proof sketch.** Tokens with the same value differ in their columns at most, which steer nothing.
Otherwise both are words that are shown where the section is hidden: the frames show either in the
same way, and the two words are all that differs. -/
theorem feed_looksLike
    (h : t.Agree u ((feed true stack t).Shows t ∧
      sectionAfter current (feed true stack t).out ≠ some s))
    (hmisses : ∀ found, .fault (.missingArgument found) ∉ (feed true stack t).out)
    (hstack : stack.map Frame.flush = stack'.map Frame.flush) :
    (feed true stack t).LooksLike s current (feed true stack' u) := by
  obtain ⟨hkind, hline, hfirst, hvalue | ⟨hshows, hhidden⟩⟩ := h
  · have hflush : t.flush = u.flush := Token.flush_eq hkind hvalue hfirst hline
    exact .of_flush_eq (feed_congr hstack hflush true) s current
  · -- the words in one place first, then the places of the other word
    obtain ⟨out, frames, ht, hu⟩ := feed_word hshows hmisses hkind hfirst
    have hafter : sectionAfter current out ≠ some s := by
      simpa [ht, Step.showing, sectionAfter, Instr.sectionAfter] using hhidden
    have hwords : (feed true stack t).LooksLike s current (feed true stack u) := by
      rw [ht, hu]
      exact .showing hafter frames t u
    exact hwords.trans (.of_flush_eq (feed_congr hstack rfl true) s current)

/-- **What is seen** of the program of a token list does not depend on hidden words and columns,
unless an argument is missing.

**Proof sketch.** Token by token, the stacks of frames agree up to columns. Where the values of two
tokens agree, the tokens do up to columns, and so do their steps. Where the values differ, both
words are shown after the same instructions and leave the same frames, and neither is seen. -/
theorem AgreeOutside.seen_eq (h : AgreeOutside s stack current ts us)
    (hmisses : ∀ found, .fault (.missingArgument found) ∉ programFrom true stack ts)
    (hstack : stack.map Frame.flush = stack'.map Frame.flush) :
    (seen s current (programFrom true stack ts)).map Instr.flush =
      (seen s current (programFrom true stack' us)).map Instr.flush := by
  induction ts generalizing stack stack' current us with
  | nil =>
    cases us with
    | nil =>
      refine seen_congr ?_ s current
      rw [programFrom, programFrom, ← finish_flush, ← finish_flush, hstack]
    | cons u us => exact h.elim
  | cons t ts ih =>
    cases us with
    | nil => exact h.elim
    | cons u us =>
      rw [programFrom] at hmisses
      obtain ⟨hagree, hrest⟩ := h
      obtain ⟨hframes, hafter, hseen⟩ := feed_looksLike hagree
        (fun found hmem => hmisses found (List.mem_append_left _ hmem)) hstack
      have hmissesRest := fun found hmem => hmisses found (List.mem_append_right _ hmem)
      rw [programFrom, programFrom, seen_append, seen_append, List.map_append, List.map_append,
        hseen, ← hafter, ih hrest hmissesRest hframes]

end Manpage
