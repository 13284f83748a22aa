import Manpage.Proofs.Machine.Shown
import Manpage.Proofs.Program.Text
import Manpage.Proofs.Token.Occurrence

/-!
# Reading a chunk of ink

The first token of a chunk of ink opens a word, unless it is a macro, begins a quoted argument, or
comes to a frame that keeps the rest of its line from being shown. The other tokens of the chunk go
on as the first began: what they show is put into the same word, or nothing of it is shown.

Behind a blank no word is open, unless a comment hides what follows. So the word that a chunk opens
is its own.

## Main definitions

* `Manpage.IsHidden`, `Manpage.IsInWord` — stacks that hide the rest of a line, and stacks with an
  open word.
* `Manpage.IsOneWord` — instructions that show nothing, or nothing but in one word.

## Main results

* `Manpage.feed_blank` — behind a blank.
* `Manpage.feed_beginsChunk` — the first token of a chunk.
* `Manpage.feedAll_within` — the others.
-/

namespace Manpage

variable {f g : Frame} {fs below stack : List Frame} {s : Step} {t : Token} {ts : List Token}
  {i : Instr} {out : List Instr} {isolating : Bool}

/-! ## Frames that hide tokens -/

/-- A stack that hides the rest of the line. -/
def IsHidden (stack : List Frame) : Prop :=
  ∃ f below, stack = f :: below ∧ f.swallows = true

/-- A stack with an open word, and nothing above it but an escape or a comment. -/
def IsInWord (stack : List Frame) : Prop :=
  ∃ inner below, stack = inner ++ .unit :: below ∧ ∀ f ∈ inner, f.isInner = true

/-- Instructions none of which shows a text. -/
abbrev IsSilent (out : List Instr) : Prop :=
  NoneOf Instr.isEmit out

/-- The argument of a macro shows nothing. -/
theorem Purpose.settle_silent (p : Purpose) (t : Token) (argument : Option Text) :
    IsSilent ((p.settle t argument).1 ++ (p.settle t argument).2) :=
  p.settle_noneOf (fun _ hi _ => hi) t argument (fun _ _ => rfl) fun _ _ => rfl

/-- A frame that hides tokens goes on with hiding them up to the end of the line.

**Proof sketch.** By cases on the frame. It stays as it is or gathers one more token, until its
argument ends; from then on it is the rest of the line. Nothing that an argument brings shows a
text. -/
theorem Frame.react_swallows (isolating : Bool) (hf : f.swallows = true)
    (hl : t.startsLine = false) :
    ∃ out g, f.react isolating t = .take ⟨out, [g]⟩ ∧ g.swallows = true ∧ IsSilent out := by
  have hconsume : IsSilent [.consume t] := by simp [NoneOf, Instr.isEmit]
  cases f with
  | restOfLine out => exact ⟨[.consume t], .restOfLine out, by simp [react, hl], rfl, hconsume⟩
  | argument p caller =>
    simp only [react, hl, Bool.false_eq_true, if_false]
    split
    · exact ⟨_, _, rfl, rfl, hconsume⟩
    · split
      · exact ⟨_, _, rfl, rfl, hconsume⟩
      · exact ⟨_, _, rfl, rfl, hconsume⟩
  | bareArgument p caller text =>
    have hsettle := (noneOf_append.mp (p.settle_silent caller (some text))).1
    simp only [react, hl, Bool.false_eq_true, if_false]
    split
    · exact ⟨_, _, rfl, rfl, hsettle.append hconsume⟩
    · exact ⟨_, _, rfl, rfl, hconsume⟩
  | quotedArgument p caller text =>
    have hsettle := (noneOf_append.mp (p.settle_silent caller (some text))).1
    simp only [react, hl, Bool.false_eq_true, if_false]
    split
    · exact ⟨_, _, rfl, rfl, hconsume.append hsettle⟩
    · exact ⟨_, _, rfl, rfl, hconsume⟩
  | titleLine text => exact ⟨_, _, by simp only [react, hl]; rfl, rfl, hconsume⟩
  | _ => exact Bool.noConfusion hf

/-- The rest of a line that is hidden stays hidden, and shows nothing. -/
theorem feed_hidden (isolating : Bool) (h : IsHidden stack) (hl : t.startsLine = false) :
    IsHidden (feed isolating stack t).frames ∧ IsSilent (feed isolating stack t).out := by
  obtain ⟨f, below, rfl, hf⟩ := h
  obtain ⟨out, g, hreact, hg, hout⟩ := Frame.react_swallows isolating hf hl
  simp only [feed, hreact]
  exact ⟨⟨g, below, rfl, hg⟩, hout⟩

/-! ## Nothing in store shows a text -/

/-- The call of a macro shows nothing, and leaves nothing that shows a text.

**Proof sketch.** By the macros one by one: what is left of a call are frames for arguments, the
uses of which show nothing, and ends of lines. -/
theorem Step.call_silent (isolating : Bool) (t : Token) :
    IsSilent (Step.call isolating t).out ∧
      ∀ f ∈ (Step.call isolating t).frames, f.IsFreeOf Instr.isEmit := by
  have hargument : ∀ p, Frame.IsFreeOf Instr.isEmit (.argument p t) :=
    fun p => p.settle_silent t
  unfold Step.call
  split
  case h_2 =>
    split
    · exact ⟨by simp [NoneOf, Instr.isEmit], by simpa using hargument .title⟩
    · simp [NoneOf, Instr.isEmit, Frame.IsFreeOf]
  case h_4 | h_10 | h_14 | h_15 =>
    exact ⟨by simp [NoneOf, Instr.isEmit], by simpa using hargument _⟩
  case h_8 =>
    refine ⟨by simp [NoneOf, Instr.isEmit], List.forall_mem_cons.mpr ⟨hargument .tag, ?_⟩⟩
    simp [NoneOf, Instr.isEmit, Frame.IsFreeOf]
  case h_9 =>
    refine ⟨by simp [NoneOf, Instr.isEmit], List.forall_mem_cons.mpr ⟨trivial, ?_⟩⟩
    simpa using hargument .mark
  all_goals simp [NoneOf, Instr.isEmit, Frame.IsFreeOf]

/-- A macro shows nothing, whatever stack it comes to.

**Proof sketch.** By induction on the stack. A tag calls the macro, the other frames pass it on with
what they have in store, which shows nothing. -/
theorem feed_macroName_silent (isolating : Bool) (ht : t.IsPlaced) (hk : t.kind = .macroName)
    (hfree : ∀ f ∈ stack, f.IsFreeOf Instr.isEmit) :
    IsSilent (feed isolating stack t).out ∧
      ∀ f ∈ (feed isolating stack t).frames, f.IsFreeOf Instr.isEmit := by
  have hl := ht.startsLine_of_macroName hk
  obtain ⟨hcall, hframes⟩ := Step.call_silent isolating t
  induction stack with
  | nil =>
    have hbegin : IsSilent [.beginLine] := by simp [NoneOf, Instr.isEmit]
    simp only [feed, Step.top, hk, hl, if_true]
    exact ⟨hbegin.append hcall, hframes⟩
  | cons f below ih =>
    have hbelow : ∀ g ∈ below, g.IsFreeOf Instr.isEmit :=
      fun g hg => hfree g (List.mem_cons_of_mem f hg)
    by_cases hf : f = .tag
    · subst hf
      simp only [feed, Frame.react, hk]
      refine ⟨hcall, fun g hg => ?_⟩
      rcases List.mem_append.mp hg with hg | hg
      · exact hframes g hg
      · exact hbelow g hg
    · obtain ⟨out, hreact, hsilent⟩ := Frame.react_macroName isolating isSortOfStored_isEmit
        (hfree f List.mem_cons_self) ht hk hf
      obtain ⟨hmore, hrest⟩ := ih hbelow
      simp only [feed, hreact]
      exact ⟨hsilent.append hmore, hrest⟩

/-- Nothing that shows a text gets into store. Frames that a token leaves are those from before, or
new ones that store no text. -/
theorem feed_free (isolating : Bool) (ht : t.IsPlaced)
    (hfree : ∀ f ∈ stack, f.IsFreeOf Instr.isEmit) :
    ∀ f ∈ (feed isolating stack t).frames, f.IsFreeOf Instr.isEmit := by
  by_cases hk : t.kind = .macroName
  · exact (feed_macroName_silent isolating ht hk hfree).2
  intro f hf
  rcases (feed_text isolating isSortOfStored_isEmit hfree hk).2 f hf with hf | hf
  · exact hfree f hf
  · exact hf.free

/-- Placed tokens leave no text to be shown in store where there was none before them. -/
theorem feedAll_free (isolating : Bool) (hts : ∀ t ∈ ts, t.IsPlaced)
    (hfree : ∀ f ∈ stack, f.IsFreeOf Instr.isEmit) :
    ∀ f ∈ (feedAll isolating stack ts).frames, f.IsFreeOf Instr.isEmit := by
  induction ts generalizing stack with
  | nil => exact hfree
  | cons t ts ih =>
    exact ih (fun u hu => hts u (List.mem_cons_of_mem t hu))
      (feed_free isolating (hts t List.mem_cons_self) hfree)

/-! ## Behind a blank -/

/-- A blank on a line of text is put there as it is. -/
theorem Step.line_blank (isolating : Bool) (hk : t.kind = .blank) :
    Step.line isolating t = ⟨[.consume t, .blank t.value], [.line]⟩ := by
  simp [Step.line, Step.run, Step.word, Step.above, hk]

/-- A frame that takes a blank leaves one that hides what follows, or one above which no word is
open.

**Proof sketch.** By cases on the frame, within a line first. Frames that hide tokens go on with it,
frames of text and of arguments show or skip the blank and stay, and those of words and escapes pass
it on. At the start of a line, only a tag or a title takes it. -/
theorem Frame.react_blank (isolating : Bool) (f : Frame) (hk : t.kind = .blank) :
    (∃ out g, f.react isolating t = .take ⟨out, [g]⟩ ∧
      (g.swallows = true ∨ (g.isInner = false ∧ g ≠ .unit))) ∨
    ∃ out, f.react isolating t = .pass out := by
  cases hl : t.startsLine with
  | false =>
    by_cases hf : f.swallows = true
    · obtain ⟨out, g, hreact, hg, -⟩ := react_swallows isolating hf hl
      exact Or.inl ⟨out, g, hreact, Or.inl hg⟩
    cases f with
    | line | tag =>
      simp only [react, hl, hk, Step.line_blank isolating hk]
      exact Or.inl ⟨_, .line, rfl, Or.inr ⟨rfl, by decide⟩⟩
    | arguments first =>
      simp only [react, hl, hk]
      exact Or.inl ⟨_, .arguments first, rfl, Or.inr ⟨rfl, by simp⟩⟩
    | quoted =>
      simp only [react, hl, hk, Step.word]
      exact Or.inl ⟨_, .quoted, rfl, Or.inr ⟨rfl, by decide⟩⟩
    | argumentsOrLine =>
      simp only [react, hl, hk]
      exact Or.inl ⟨_, .argumentsOrLine, rfl, Or.inr ⟨rfl, by decide⟩⟩
    | alternating first font other =>
      simp only [react, hl, hk]
      cases first with
      | true => exact Or.inl ⟨_, .alternating true font other, rfl, Or.inr ⟨rfl, by simp⟩⟩
      | false => exact Or.inl ⟨_, .alternating false font other, rfl, Or.inr ⟨rfl, by simp⟩⟩
    | marker =>
      simp only [react, hl, hk]
      exact Or.inl ⟨_, .marker, rfl, Or.inr ⟨rfl, by decide⟩⟩
    | restOfLine | argument | bareArgument | quotedArgument | titleLine => exact absurd rfl hf
    | unit | afterwards | escape | escapeArgument | openedArgument | characterName | closingBracket
    | fontEnd => exact Or.inr ⟨_, by simp only [react, hl, hk]; rfl⟩
  | true =>
    -- at the start of a line a blank goes on to the next frame, unless this one may take the line
    have ht : t.IsPlaced := ⟨by simp [hk], by simp [hk]⟩
    by_cases hf : f.mayTakeLine = false
    · obtain ⟨out, hreact, -⟩ :=
        react_of_startsLine (P := Instr.isEmit) isolating (fun _ => rfl) ht hl (Or.inl hf)
      exact Or.inr ⟨out, hreact⟩
    rcases react_of_mayTakeLine isolating (by simpa using hf) hl (by simp [hk]) (by simp [hk]) with
      hreact | hreact
    · rw [Step.line_blank isolating hk] at hreact
      exact Or.inl ⟨_, .line, hreact, Or.inr ⟨rfl, by decide⟩⟩
    · exact Or.inl ⟨_, .titleLine t.value, hreact, Or.inl rfl⟩

/-- Behind a blank, what follows is hidden, or no word is open.

**Proof sketch.** The blank ends up on some frame that takes it, by induction on the stack. If that
frame hides nothing, no word is open above it; and none is open below it, since above a word there
are only frames of escapes and comments. -/
theorem feed_blank {tokens : List Token} {q : Stage} (hk : t.kind = .blank)
    (hready : Ready tokens q (feed isolating stack t).frames) :
    IsHidden (feed isolating stack t).frames ∨ Frame.unit ∉ (feed isolating stack t).frames := by
  have hframes : ∃ g below, (feed isolating stack t).frames = g :: below ∧
      (g.swallows = true ∨ (g.isInner = false ∧ g ≠ .unit)) := by
    clear hready
    induction stack with
    | nil =>
      refine ⟨.line, [], ?_, Or.inr ⟨rfl, by decide⟩⟩
      simp only [feed, Step.top, hk, Step.line_blank isolating hk]
      split <;> rfl
    | cons f below ih =>
      rcases f.react_blank isolating hk with ⟨out, g, hreact, hg⟩ | ⟨out, hreact⟩
      · simp only [feed, hreact]
        exact ⟨g, below, rfl, hg⟩
      · simp only [feed, hreact]
        exact ih
  obtain ⟨g, below, heq, hg⟩ := hframes
  rw [heq] at hready ⊢
  rcases hg with hg | ⟨hinner, hunit⟩
  · exact Or.inl ⟨g, below, rfl, hg⟩
  · obtain ⟨-, -, hbelow, -⟩ := hready
    refine Or.inr fun hmem => ?_
    rcases List.mem_cons.mp hmem with rfl | hmem
    · exact hunit rfl
    · exact hbelow.resolve_left (by simp [hinner]) hmem

/-! ## The tokens within a chunk -/

/-- Instructions that may come while a word is put together. -/
def ArePartOfWord (out : List Instr) : Prop :=
  ∀ i ∈ out, i.isInWord = true

/-- Two rows of instructions that are part of a word are so together. -/
theorem ArePartOfWord.append {js : List Instr} (h : ArePartOfWord out) (h' : ArePartOfWord js) :
    ArePartOfWord (out ++ js) :=
  List.forall_mem_append.mpr ⟨h, h'⟩

/-- A step within a word. -/
structure Step.IsPartOfWord (s : Step) : Prop where
  out : ArePartOfWord s.out
  inner : ∀ f ∈ s.frames, f.isInner = true

/-- A token in the middle of a text is part of a word, unless it calls a macro, is blank, or stands
for an empty line. -/
theorem Step.word_isPartOfWord (isolating : Bool) (hcall : t.kind ≠ .macroName)
    (hempty : t.kind ≠ .emptyLine) (hblank : t.kind ≠ .blank) :
    (Step.word isolating t).IsPartOfWord := by
  unfold Step.word
  cases hk : t.kind with
  | macroName => exact absurd hk hcall
  | emptyLine => exact absurd hk hempty
  | blank => exact absurd hk hblank
  | backslash =>
    exact ⟨by simp [ArePartOfWord, Instr.isInWord, Instr.isQuiet], by simp [Frame.isInner]⟩
  | _ => exact ⟨by simp [ArePartOfWord, Instr.isInWord, Instr.isQuiet], by simp⟩

/-- The command of an escape is part of a word. -/
theorem Step.command_isPartOfWord (t : Token) : (Step.command t).IsPartOfWord := by
  unfold Step.command
  cases Escape.ofCommand t.value with
  | literal | unsupported =>
    exact ⟨by simp [ArePartOfWord, Instr.isInWord, Instr.isQuiet], by simp⟩
  | _ => exact ⟨by simp [ArePartOfWord, Instr.isInWord, Instr.isQuiet], by simp [Frame.isInner]⟩

/-- What the argument of an escape is put to is part of a word: it sets a font at most. -/
theorem ArgumentUse.settle_arePartOfWord (u : ArgumentUse) (argument : Option Text) :
    ArePartOfWord (u.settle argument) := by
  unfold settle
  split
  · simp [ArePartOfWord]
  · simp [ArePartOfWord, Instr.isInWord, Instr.isQuiet]
  · simp [ArePartOfWord]
  · split <;> simp [ArePartOfWord, Instr.isInWord, Instr.isQuiet]

/-- The name of a character brings a part of a word: the character, if it is known, or a warning. -/
theorem characterNamed_arePartOfWord (command : Token) (name : Text) :
    ArePartOfWord (characterNamed command name) := by
  unfold characterNamed
  split <;> simp [ArePartOfWord, Instr.isInWord, Instr.isQuiet]

/-- What the frames of an escape and of a comment do with a token of their line is part of the word.

**Proof sketch.** By cases on the frame. Each of these takes the tokens of its escape, or passes the
token on with nothing but the end of a font. -/
theorem Frame.react_isPartOfWord (isolating : Bool) (hf : f.isInner = true)
    (hl : t.startsLine = false) :
    (∃ s : Step, f.react isolating t = .take s ∧ s.IsPartOfWord) ∨
      ∃ out, f.react isolating t = .pass out ∧ ArePartOfWord out := by
  have hnone : ArePartOfWord [] := by simp [ArePartOfWord]
  have hone : ∀ i : Instr, i.isInWord = true → ArePartOfWord [i] := by simp [ArePartOfWord]
  have hconsume : ArePartOfWord [.consume t] := hone _ rfl
  have hclosing : ∀ bracketed : Bool,
      ∀ g ∈ (if bracketed then [closingBracket] else []), g.isInner = true :=
    forall_mem_closing rfl
  cases f with
  | escape =>
    simp only [react]
    split
    · exact Or.inr ⟨_, rfl, hnone⟩
    · exact Or.inl ⟨_, rfl, Step.command_isPartOfWord t⟩
  | escapeArgument u =>
    simp only [react, hl, Bool.false_eq_true, if_false]
    split
    · exact Or.inl ⟨_, rfl, hconsume, by simp [isInner]⟩
    · exact Or.inl ⟨_, rfl, hconsume, by simp [isInner]⟩
    · exact Or.inl ⟨_, rfl, hconsume.append (u.settle_arePartOfWord _), by simp⟩
    · exact Or.inr ⟨_, rfl, u.settle_arePartOfWord none⟩
  | openedArgument u bracketed =>
    simp only [react]
    split
    · exact Or.inl ⟨_, rfl, hconsume.append (u.settle_arePartOfWord _), hclosing bracketed⟩
    · exact Or.inr ⟨_, rfl, hone _ rfl⟩
  | characterName command bracketed =>
    simp only [react]
    split
    · exact Or.inr ⟨_, rfl, hnone⟩
    · exact Or.inl ⟨_, rfl, hconsume.append (characterNamed_arePartOfWord command _),
        hclosing bracketed⟩
  | closingBracket =>
    simp only [react]
    split
    · exact Or.inl ⟨_, rfl, hconsume, by simp⟩
    · exact Or.inr ⟨_, rfl, hnone⟩
  | fontEnd => exact Or.inr ⟨_, by simp only [react, hl]; rfl, hnone⟩
  | restOfLine out =>
    cases out with
    | nil => exact Or.inl ⟨_, by simp only [react, hl]; rfl, hconsume, by simp [isInner]⟩
    | cons => exact Bool.noConfusion hf
  | _ => exact Bool.noConfusion hf

/-- **A token within a word.** The word stays open.

**Proof sketch.** By induction on the frames above the word. They take the token as part of their
escape or pass it on; once it comes to the word, the word takes it and stays open, since the token
is no blank. -/
theorem feed_isInWord (isolating : Bool) (h : IsInWord stack) (ht : t.IsWithin) :
    IsInWord (feed isolating stack t).frames ∧ ArePartOfWord (feed isolating stack t).out := by
  obtain ⟨inner, below, rfl, hinner⟩ := h
  induction inner with
  | nil =>
    have hword := Step.word_isPartOfWord isolating ht.ne_macroName ht.ne_emptyLine ht.ne_blank
    have hreact : Frame.unit.react isolating t = .take ((Step.word isolating t).above .unit) := by
      simp [Frame.react, ht.startsLine_eq, ht.ne_blank]
    simp only [List.nil_append, feed, hreact]
    exact ⟨⟨(Step.word isolating t).frames, below, by simp [Step.above], hword.inner⟩, hword.out⟩
  | cons f inner ih =>
    have hinner' : ∀ g ∈ inner, g.isInner = true := fun g hg => hinner g (List.mem_cons_of_mem f hg)
    rcases Frame.react_isPartOfWord isolating (hinner f List.mem_cons_self) ht.startsLine_eq with
      ⟨s, hreact, hs⟩ | ⟨out, hreact, hout⟩
    · simp only [List.cons_append, feed, hreact]
      refine ⟨⟨s.frames ++ inner, below, by simp, ?_⟩, hs.out⟩
      intro g hg
      rcases List.mem_append.mp hg with hg | hg
      · exact hs.inner g hg
      · exact hinner' g hg
    · obtain ⟨hframes, hmore⟩ := ih hinner'
      simp only [List.cons_append, feed, hreact]
      exact ⟨hframes, hout.append hmore⟩

/-- **The tokens within a chunk** go on as the first began: what they show goes into the open word,
or nothing of it is shown. -/
theorem feedAll_within (isolating : Bool) (stack : List Frame) (hts : ∀ t ∈ ts, t.IsWithin) :
    (IsInWord stack → ArePartOfWord (feedAll isolating stack ts).out) ∧
      (IsHidden stack → IsSilent (feedAll isolating stack ts).out) := by
  induction ts generalizing stack with
  | nil => exact ⟨fun _ => by simp [ArePartOfWord], fun _ => by simp [NoneOf]⟩
  | cons t ts ih =>
    have ht := hts t List.mem_cons_self
    obtain ⟨hword, hhidden⟩ := ih (feed isolating stack t).frames
      fun u hu => hts u (List.mem_cons_of_mem t hu)
    refine ⟨fun h => ?_, fun h => ?_⟩
    · obtain ⟨hframes, hout⟩ := feed_isInWord isolating h ht
      exact hout.append (hword hframes)
    · obtain ⟨hframes, hout⟩ := feed_hidden isolating h ht.startsLine_eq
      exact hout.append (hhidden hframes)

/-! ## The first token of a chunk -/

/-- A step that opens a word, or hides the rest of the line, or begins a quoted argument. Nothing is
shown before the word is opened. -/
inductive Step.BeginsChunk (s : Step) : Prop
  | word (pre inner : List Instr) (hout : s.out = pre ++ .openWord :: inner) (hpre : IsSilent pre)
      (hinner : ArePartOfWord inner) (hframes : IsInWord s.frames)
  | hidden (hout : IsSilent s.out) (hframes : IsHidden s.frames)
  | quoted (hframes : Frame.quoted ∈ s.frames)

namespace Step

/-- A chunk is begun above other frames in the same way. What begins it stands above them. -/
theorem BeginsChunk.over (h : s.BeginsChunk) (rest : List Frame) :
    Step.BeginsChunk ⟨s.out, s.frames ++ rest⟩ := by
  cases h with
  | word pre inner hout hpre hinner hframes =>
    obtain ⟨above, below, heq, hall⟩ := hframes
    exact .word pre inner hout hpre hinner ⟨above, below ++ rest, by simp [heq], hall⟩
  | hidden hout hframes =>
    obtain ⟨g, below, heq, hg⟩ := hframes
    exact .hidden hout ⟨g, below ++ rest, by simp [heq], hg⟩
  | quoted hframes => exact .quoted (List.mem_append_left _ hframes)

/-- A step that begins a chunk still does so above another frame. -/
theorem BeginsChunk.above (h : s.BeginsChunk) (f : Frame) : (s.above f).BeginsChunk :=
  h.over [f]

/-- A chunk is begun after instructions that show nothing in the same way. -/
theorem BeginsChunk.after (h : s.BeginsChunk) (hout : IsSilent out) :
    Step.BeginsChunk ⟨out ++ s.out, s.frames⟩ := by
  cases h with
  | word pre inner heq hpre hinner hframes =>
    exact .word (out ++ pre) inner (by simp [heq]) (hout.append hpre) hinner hframes
  | hidden hmore hframes => exact .hidden (hout.append hmore) hframes
  | quoted hframes => exact .quoted hframes

/-- A step that begins a chunk still does so behind an instruction that shows nothing. -/
theorem BeginsChunk.preceded (h : s.BeginsChunk) (hi : i.isEmit = false) :
    (s.preceded i).BeginsChunk :=
  have hone : IsSilent [i] := by simpa [NoneOf] using hi
  h.after hone

/-- A token that begins a word begins a chunk in a unit. -/
theorem unit_beginsChunk (isolating : Bool) (ht : t.BeginsWord) :
    (unit isolating t).BeginsChunk := by
  have hword := word_isPartOfWord isolating ht.ne_macroName ht.ne_emptyLine ht.ne_blank
  exact .word [] _ rfl (by simp [NoneOf]) hword.out ⟨_, [], rfl, hword.inner⟩

/-- A token that begins a word begins a chunk on a line of text. -/
theorem line_beginsChunk (isolating : Bool) (ht : t.BeginsWord) :
    (line isolating t).BeginsChunk := by
  unfold line run
  rw [if_neg ht.ne_blank]
  exact (unit_beginsChunk isolating ht).above .line

/-- A token that begins a word begins a chunk as an argument. -/
theorem argument_beginsChunk (isolating : Bool) (ht : t.BeginsWord) :
    (argument isolating t).BeginsChunk := by
  unfold argument
  split
  · exact .quoted List.mem_cons_self
  · exact unit_beginsChunk isolating ht

/-- A token that begins a word begins a chunk among arguments. -/
theorem arguments_beginsChunk (isolating first : Bool) (ht : t.BeginsWord) :
    (arguments isolating first t).BeginsChunk := by
  have h := (argument_beginsChunk isolating ht).above (.arguments false)
  unfold arguments
  cases first with
  | true => exact h
  | false => exact h.preceded rfl

/-- A token that begins a word begins a chunk in a font. -/
theorem inFont_beginsChunk (isolating : Bool) (font other : Font) (ht : t.BeginsWord) :
    (inFont isolating font other t).BeginsChunk :=
  (((argument_beginsChunk isolating ht).above _).above _).preceded rfl

/-- A token that begins a word begins a chunk where nothing is open. At the start of a line the
break for lines that are kept comes before it, and shows nothing. -/
theorem top_beginsChunk (isolating : Bool) (ht : t.BeginsWord) :
    (top isolating t).BeginsChunk := by
  have hline := line_beginsChunk isolating ht
  have htop : top isolating t =
      if t.startsLine then (line isolating t).preceded .beginLine else line isolating t := by
    unfold top
    rcases ht with hk | hk | hk <;> simp [hk]
  rw [htop]
  split
  · exact hline.preceded rfl
  · exact hline

end Step

/-- A token that begins a word begins the tag where one is waited for. -/
theorem Frame.react_tag_of_beginsWord (isolating : Bool) (ht : t.BeginsWord) :
    Frame.tag.react isolating t = .take (Step.line isolating t) := by
  rcases ht with hk | hk | hk <;> simp [react, hk]

/-- At the start of a line, a chunk is begun by the frames that wait for the line, and all others
pass its first token on. -/
theorem Frame.react_beginsWord_of_startsLine (isolating : Bool) (f : Frame) (ht : t.BeginsWord)
    (hl : t.startsLine = true) :
    (∃ s : Step, f.react isolating t = .take s ∧ s.BeginsChunk) ∨
      ∃ out, f.react isolating t = .pass out := by
  have hplaced : t.IsPlaced :=
    ⟨fun hk => absurd hk ht.ne_macroName, fun _ => ⟨ht.not_part.2.1, ht.not_part.2.2.2.2⟩⟩
  by_cases hf : f.mayTakeLine = false
  · obtain ⟨out, hreact, -⟩ :=
      react_of_startsLine (P := Instr.isEmit) isolating (fun _ => rfl) hplaced hl (Or.inl hf)
    exact Or.inr ⟨out, hreact⟩
  rcases react_of_mayTakeLine isolating (by simpa using hf) hl ht.ne_macroName ht.ne_emptyLine with
    hreact | hreact
  · exact Or.inl ⟨_, hreact, Step.line_beginsChunk isolating ht⟩
  · exact Or.inl ⟨_, hreact, .hidden (by simp [NoneOf, Instr.isEmit]) ⟨_, [], rfl, rfl⟩⟩

/-- Within a line, a chunk is begun by the frames of text and of arguments, and hidden by those that
hide the line. The frames of an escape pass its first token on.

**Proof sketch.** By cases on the frame. The parts of an escape are excluded as tokens, so that the
frames of an escape have nothing to take. -/
theorem Frame.react_beginsWord_of_within (isolating : Bool) (ht : t.BeginsWord)
    (hl : t.startsLine = false) (hunit : f ≠ .unit) (hquoted : f ≠ .quoted) :
    (∃ s : Step, f.react isolating t = .take s ∧ s.BeginsChunk) ∨
      ∃ out, f.react isolating t = .pass out := by
  by_cases hf : f.swallows = true
  · obtain ⟨out, g, hreact, hg, hout⟩ := react_swallows isolating hf hl
    exact Or.inl ⟨_, hreact, .hidden hout ⟨g, [], rfl, hg⟩⟩
  have hblank := ht.ne_blank
  obtain ⟨hcommand, hargument, hparen, hopen, hclose⟩ := ht.not_part
  cases f with
  | line => exact Or.inl ⟨_, by simp [react, hl], Step.line_beginsChunk isolating ht⟩
  | unit => exact absurd rfl hunit
  | quoted => exact absurd rfl hquoted
  | arguments first =>
    exact Or.inl ⟨_, by simp [react, hl, hblank], Step.arguments_beginsChunk isolating first ht⟩
  | argumentsOrLine =>
    exact Or.inl ⟨_, by simp [react, hl, hblank], Step.arguments_beginsChunk isolating true ht⟩
  | alternating first font other =>
    exact Or.inl ⟨_, by simp [react, hl, hblank], Step.inFont_beginsChunk isolating font other ht⟩
  | marker =>
    exact Or.inl ⟨(Step.argument isolating t).above (.afterwards [.space]),
      by simp [react, hl, hblank], (Step.argument_beginsChunk isolating ht).above _⟩
  | tag =>
    exact Or.inl ⟨_, react_tag_of_beginsWord isolating ht, Step.line_beginsChunk isolating ht⟩
  | restOfLine | argument | bareArgument | quotedArgument | titleLine => exact absurd rfl hf
  | afterwards out => exact Or.inr ⟨out, rfl⟩
  | escape => exact Or.inr ⟨[], by simp [react, hcommand]⟩
  | escapeArgument u =>
    exact Or.inr ⟨u.settle none, by simp [react, hl]⟩
  | openedArgument u bracketed =>
    exact Or.inr ⟨[.fault (.missingArgument (some t))], by simp only [react, if_neg hargument]⟩
  | characterName command bracketed => exact Or.inr ⟨[], by simp [react, hargument]⟩
  | closingBracket => exact Or.inr ⟨[], by simp only [react, if_neg hclose]⟩
  | fontEnd => exact Or.inr ⟨[], by simp [react, hl]⟩

/-- **The first token of a chunk.** Where no word is open on its line, and no quoted argument, it
opens a word, is hidden, or begins a quoted argument. Nothing is shown before.

**Proof sketch.** Induction on the stack. A frame begins the chunk, or passes its first token on and
shows nothing, since nothing that shows a text is in store. -/
theorem feed_beginsChunk (isolating : Bool) (ht : t.BeginsWord)
    (hfree : ∀ f ∈ stack, f.IsFreeOf Instr.isEmit)
    (hline : t.startsLine = true ∨ (Frame.unit ∉ stack ∧ Frame.quoted ∉ stack)) :
    (feed isolating stack t).BeginsChunk := by
  induction stack with
  | nil => exact Step.top_beginsChunk isolating ht
  | cons f below ih =>
    have hbelow := ih (fun g hg => hfree g (List.mem_cons_of_mem f hg))
      (hline.imp_right fun h => ⟨fun hmem => h.1 (List.mem_cons_of_mem f hmem),
        fun hmem => h.2 (List.mem_cons_of_mem f hmem)⟩)
    have hreact : (∃ s : Step, f.react isolating t = .take s ∧ s.BeginsChunk) ∨
        ∃ out, f.react isolating t = .pass out := by
      cases hl : t.startsLine with
      | true => exact f.react_beginsWord_of_startsLine isolating ht hl
      | false =>
        obtain ⟨hunit, hquoted⟩ := hline.resolve_left (by simp [hl])
        exact Frame.react_beginsWord_of_within isolating ht hl
          (by rintro rfl; exact hunit List.mem_cons_self)
          (by rintro rfl; exact hquoted List.mem_cons_self)
    have htext := Frame.react_text isolating isSortOfStored_isEmit (hfree f List.mem_cons_self)
      ht.ne_macroName
    rcases hreact with ⟨s, hreact, hs⟩ | ⟨out, hreact⟩
    · simp only [feed, hreact]
      exact hs.over below
    · rw [hreact] at htext
      simp only [feed, hreact]
      exact hbelow.after htext

/-! ## A whole chunk -/

/-- Instructions that show nothing, or nothing but in one word. -/
def IsOneWord (out : List Instr) : Prop :=
  IsSilent out ∨
    ∃ pre inner, out = pre ++ .openWord :: inner ∧ IsSilent pre ∧ ArePartOfWord inner

/-- **The tokens of a chunk** show nothing, or nothing but in one word, unless a quoted argument is
open when they come or begins with them.

**Proof sketch.** The first token begins a word, is hidden, or opens a quoted argument, which is
excluded. In a word the other tokens go on with it, and where they are hidden they are all hidden,
as they stand on the same line. -/
theorem feedAll_isOneWord (isolating : Bool) (ht : t.BeginsWord) (hts : ∀ u ∈ ts, u.IsWithin)
    (hfree : ∀ f ∈ stack, f.IsFreeOf Instr.isEmit)
    (hline : t.startsLine = true ∨ IsHidden stack ∨ Frame.unit ∉ stack)
    (hbefore : Frame.quoted ∉ stack) (hfirst : Frame.quoted ∉ (feed isolating stack t).frames) :
    IsOneWord (feedAll isolating stack (t :: ts)).out := by
  obtain ⟨hword, hhidden⟩ := feedAll_within isolating (feed isolating stack t).frames hts
  have hchunk : (feed isolating stack t).BeginsChunk := by
    cases hl : t.startsLine with
    | true => exact feed_beginsChunk isolating ht hfree (Or.inl hl)
    | false =>
      rcases hline.resolve_left (by simp [hl]) with hstack | hunit
      · obtain ⟨hframes, hout⟩ := feed_hidden isolating hstack hl
        exact .hidden hout hframes
      · exact feed_beginsChunk isolating ht hfree (Or.inr ⟨hunit, hbefore⟩)
  simp only [feedAll]
  cases hchunk with
  | word pre inner hout hpre hinner hframes =>
    refine Or.inr ⟨pre, inner ++ (feedAll isolating (feed isolating stack t).frames ts).out, ?_,
      hpre, hinner.append (hword hframes)⟩
    rw [hout]
    simp
  | hidden hout hframes => exact Or.inl (hout.append (hhidden hframes))
  | quoted hframes => exact absurd hframes hfirst

end Manpage
