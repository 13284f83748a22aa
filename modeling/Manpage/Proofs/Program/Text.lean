import Manpage.Proofs.Machine.Depth
import Manpage.Proofs.Program.Reading
import Manpage.Proofs.Program.Stepwise
import Manpage.Proofs.Token.Call

/-!
# What text leaves alone

Tokens other than macros give few sorts of instructions by themselves. All others that come while
they are read were stored in a frame before, or are those for the argument of a macro. Where no
frame has an instruction of some sort in store, text brings none, unless the sort is that of the
texts that are shown: these are brought by the tokens that a frame takes, and are never in store.

The start of a line is passed on by all frames but those of a tag, of a title and of a macro whose
argument may be its next line.

## Main definitions

* `Manpage.Frame.IsFreeOf` — a frame that has no instruction of some sort in store.
* `Manpage.Frame.mayTakeLine` — a frame that may take the first token of a line.
* `Manpage.Frame.IsPlain` — a frame that is free of a sort and takes no start of a line.
* `Manpage.IsSortOfStored`, `Manpage.IsSortOfCounted` — a sort of instructions of which text brings
  none but shown texts, and one of instructions that count for margin scopes.

## Main results

* `Manpage.Purpose.settle_noneOf` — the arguments of macros.
* `Manpage.Frame.react_text` — text brings nothing that is not in store.
* `Manpage.Frame.react_of_startsLine` — the start of a line is passed on, as the end would be.
* `Manpage.feed_cases` — a stack takes a token or passes it to whatever lies below.
* `Manpage.feed_text` — text that is read with a stack.
-/

namespace Manpage

variable {P : Instr → Bool} {f g : Frame} {fs : List Frame} {s : Step} {t : Token} {i : Instr}
  {out : List Instr} {isolating : Bool}

/-! ## Instructions in store -/

/-- A sort of which text by itself brings no instruction, except those that show a text. -/
def IsSortOfStored (P : Instr → Bool) : Prop :=
  ∀ i : Instr, i.isCounted = false → i.isEmit = false → P i = false

/-- The texts that are shown are a sort of their own, none of which is ever in store. -/
theorem isSortOfStored_isEmit : IsSortOfStored Instr.isEmit :=
  fun _ _ h => h

/-- A sort of instructions that count for margin scopes. -/
def IsSortOfCounted (P : Instr → Bool) : Prop :=
  ∀ i : Instr, i.isCounted = false → P i = false

/-- The instructions that count for margin scopes are a sort of these. -/
theorem isSortOfCounted_isCounted : IsSortOfCounted Instr.isCounted :=
  fun _ h => h

/-- The instructions for margin scopes are a sort of those that count. -/
theorem isSortOfCounted_isMargin : IsSortOfCounted Instr.isMargin := by
  intro i h
  simp only [Instr.isCounted, Bool.or_eq_false_iff] at h
  exact h.1

/-- A sort of instructions that count is one of instructions in store. -/
theorem IsSortOfCounted.stored (hP : IsSortOfCounted P) : IsSortOfStored P :=
  fun i h _ => hP i h

/-- None of the instructions is of the sort. -/
def NoneOf (P : Instr → Bool) (out : List Instr) : Prop :=
  ∀ i ∈ out, P i = false

/-- There is none of a sort in two rows of instructions just if there is none in either. -/
theorem noneOf_append {js : List Instr} : NoneOf P (out ++ js) ↔ NoneOf P out ∧ NoneOf P js :=
  List.forall_mem_append

/-- Two rows of instructions without any of a sort are so together. -/
theorem NoneOf.append {js : List Instr} (h : NoneOf P out) (h' : NoneOf P js) :
    NoneOf P (out ++ js) :=
  noneOf_append.mpr ⟨h, h'⟩

/-- There is none of a sort just if nothing is left when the others are filtered out. -/
theorem noneOf_iff_filter_eq_nil : NoneOf P out ↔ out.filter P = [] := by
  simp [NoneOf, List.filter_eq_nil_iff]

/-- Where there is none of a sort, nothing of it is left by a filter. -/
theorem NoneOf.filter_eq (h : NoneOf P out) : out.filter P = [] :=
  noneOf_iff_filter_eq_nil.mp h

/-- None of the instructions is of the sort but those that show a text. -/
def NoneButShown (P : Instr → Bool) (out : List Instr) : Prop :=
  ∀ i ∈ out, i.isEmit = false → P i = false

/-- Instructions without any of a sort have none but shown ones. -/
theorem NoneOf.noneButShown (h : NoneOf P out) : NoneButShown P out :=
  fun i hi _ => h i hi

/-- Two rows of instructions with none of a sort but shown ones are so together. -/
theorem NoneButShown.append {js : List Instr} (h : NoneButShown P out)
    (h' : NoneButShown P js) : NoneButShown P (out ++ js) :=
  List.forall_mem_append.mpr ⟨h, h'⟩

/-- An instruction that is shown or not of the sort may stand in front. -/
theorem NoneButShown.cons (hi : i.isEmit = false → P i = false) (h : NoneButShown P out) :
    NoneButShown P (i :: out) := by
  intro j hj
  rcases List.mem_cons.mp hj with rfl | hj
  · exact hi
  · exact h j hj

/-- What shows a text does not count. -/
theorem NoneButShown.noneOf (hP : IsSortOfCounted P) (h : NoneButShown P out) : NoneOf P out := by
  intro i hi
  cases i with
  | emit text => exact hP _ rfl
  | _ => exact h _ hi rfl

/-- Instructions that do not count have none of a sort in store, but shown ones. -/
theorem IsSortOfStored.noneButShown (hP : IsSortOfStored P)
    (h : ∀ i ∈ out, i.isCounted = false) : NoneButShown P out :=
  fun i hi => hP i (h i hi)

/-- Instructions that neither count nor show have none of a sort in store. -/
theorem IsSortOfStored.noneOf (hP : IsSortOfStored P)
    (h : ∀ i ∈ out, i.isCounted = false ∧ i.isEmit = false) : NoneOf P out :=
  fun i hi => hP i (h i hi).1 (h i hi).2

/-- A frame that has no instruction of the sort in store, whatever argument it reads. -/
def Frame.IsFreeOf (P : Instr → Bool) : Frame → Prop
  | .restOfLine out | .afterwards out => NoneOf P out
  | .argument p t | .bareArgument p t _ | .quotedArgument p t _ =>
    ∀ argument, NoneOf P ((p.settle t argument).1 ++ (p.settle t argument).2)
  | _ => True

/-- A frame that may take the first token of a line. -/
def Frame.mayTakeLine : Frame → Bool
  | .tag | .argumentsOrLine | .argument .title _ => true
  | _ => false

/-- A frame that has nothing of the sort in store and takes no start of a line. -/
structure Frame.IsPlain (P : Instr → Bool) (f : Frame) : Prop where
  free : f.IsFreeOf P
  passes : f.mayTakeLine = false

/-- A step that brings nothing of the sort but texts that it shows, and leaves nothing of it. -/
structure Step.IsPlain (P : Instr → Bool) (s : Step) : Prop where
  free : NoneButShown P s.out
  frames : ∀ f ∈ s.frames, f.IsPlain P

/-- A frame that brings nothing of the sort but texts of a token that it takes. It may stay as it
is, where it takes a token. -/
def Reaction.IsPlain (P : Instr → Bool) (f : Frame) : Reaction → Prop
  | take s => s.IsPlain P ∨ (NoneButShown P s.out ∧ s.frames = [f])
  | pass out => NoneOf P out

/-! ## Steps -/

namespace Step

/-- Frames and instructions that are plain leave a step plain. -/
theorem isClosed_isPlain (P : Instr → Bool) :
    IsClosed (fun i => i.isEmit = false → P i = false) (Frame.IsPlain P) (Step.IsPlain P) where
  above := fun hf h =>
    ⟨h.free, List.forall_mem_append.mpr ⟨h.frames, List.forall_mem_singleton.mpr hf⟩⟩
  preceded := fun hi h => ⟨h.free.cons hi, h.frames⟩

/-- A token that is entered into the trace, with plain instructions and frames. -/
theorem takesFreely_isPlain (hP : IsSortOfStored P) (t : Token) :
    TakesFreely (fun i => i.isEmit = false → P i = false) (Frame.IsPlain P) (Step.IsPlain P) t :=
  fun _ _ hout hframes => ⟨NoneButShown.cons (fun _ => hP _ rfl rfl) hout, hframes⟩

end Step

/-! ## Arguments -/

/-- An instruction that the argument of a macro may bring at once. -/
def Instr.isOfArgument : Instr → Bool
  | .warn _ _ | .enterSection _ | .fault .numberOverflow => true
  | _ => false

/-- Reading a number brings nothing but warnings and the fault of a number that is too large. -/
theorem isOfArgument_of_mem_readNumber {argument : Text} (hi : i ∈ (readNumber t argument).1) :
    i.isOfArgument = true := by
  revert i
  unfold readNumber
  split
  · simp [Instr.isOfArgument]
  · split <;> simp [Instr.isOfArgument]

/-- The argument of a macro brings warnings at once, the fault of a number, or a section. These are
what a number may bring, which all purposes but that of a title read. -/
theorem Purpose.isOfArgument_of_mem_settle_fst {p : Purpose} {argument : Option Text}
    (hi : i ∈ (p.settle t argument).1) : i.isOfArgument = true := by
  have hamount : i ∈ (readAmount t argument).1 → i.isOfArgument = true := by
    cases argument with
    | none => exact fun hi => absurd hi List.not_mem_nil
    | some text => exact isOfArgument_of_mem_readNumber
  cases p with
  | skip =>
    cases argument with
    | none => exact absurd hi List.not_mem_nil
    | some text =>
      simp only [settle, readSkip] at hi
      split at hi
      · exact isOfArgument_of_mem_readNumber hi
      · split at hi
        · exact isOfArgument_of_mem_readNumber hi
        · rcases List.mem_append.mp hi with hi | hi
          · exact isOfArgument_of_mem_readNumber hi
          · obtain rfl := List.mem_singleton.mp hi
            rfl
  | title =>
    obtain rfl := List.mem_singleton.mp hi
    rfl
  | tag | mark | indent | openMargin | closeMargin => exact hamount hi

/-- The argument of a macro shows nothing, and it opens and closes no margin scopes unless it is
there for that.

**Proof sketch.** What comes at once is of few sorts, none of them a margin or a text. What is
stored for the end of the line is listed for each purpose. -/
theorem Purpose.settle_noneOf
    (hP : ∀ i : Instr, i.isEmit = false → i.isMargin = false → P i = false)
    (p : Purpose) (t : Token) (argument : Option Text)
    (hopen : p = .openMargin → ∀ amount, P (.openMargin amount) = false)
    (hclose : p = .closeMargin → ∀ count, P (.closeMargins count t) = false) :
    NoneOf P ((p.settle t argument).1 ++ (p.settle t argument).2) := by
  have hfirst : NoneOf P (p.settle t argument).1 := by
    intro i hi
    have hsort := isOfArgument_of_mem_settle_fst hi
    cases i with
    | warn | enterSection | fault => exact hP _ rfl rfl
    | _ => exact Bool.noConfusion hsort
  have hindent : ∀ n, P (.setIndent n) = false := fun n => hP _ rfl rfl
  have hbreak : P .lineBreak = false := hP _ rfl rfl
  refine hfirst.append ?_
  cases p with
  | skip | tag => simpa [settle, NoneOf] using hP _ rfl rfl
  | mark => simpa [settle, NoneOf, hbreak] using hP _ rfl rfl
  | indent => simpa [settle, NoneOf] using hindent _
  | openMargin => simpa [settle, NoneOf, hbreak, hindent] using hopen rfl _
  | closeMargin =>
    have hforget : P .forgetIndent = false := hP _ rfl rfl
    simpa [settle, NoneOf, hforget, hindent] using hclose rfl _
  | title => simp [settle, NoneOf]

/-! ## Frames -/

/-- Text neither counts nor stores anything: what it brings is shown, or is of no sort in store. -/
theorem Instr.isCounted_of_isOfText (h : i.isOfText = true) : i.isCounted = false := by
  cases i with
  | fault cause =>
    cases cause with
    | numberOverflow => exact Bool.noConfusion h
    | _ => simp [isCounted, isMargin]
  | openMargin | closeMargins | clearMargins | sectionMargin => exact Bool.noConfusion h
  | _ => simp [isCounted, isMargin]

/-- The instructions for the argument of an escape do not count, and show nothing. They are
instructions of text, and none of them is a text to be shown. -/
theorem ArgumentUse.settle_free (hP : IsSortOfStored P) (u : ArgumentUse)
    (argument : Option Text) : NoneOf P (u.settle argument) := by
  refine hP.noneOf fun i hi => ⟨Instr.isCounted_of_isOfText (isOfText_of_mem_settle hi), ?_⟩
  revert i
  unfold settle
  split
  · simp
  · simp [Instr.isEmit]
  · simp
  · split <;> simp [Instr.isEmit]

namespace Frame

/-- What is stored shows at the end. -/
theorem atEnd_free (hP : IsSortOfStored P) (hf : f.IsFreeOf P) : NoneOf P f.atEnd := by
  cases f with
  | restOfLine | afterwards => exact hf
  | argument p caller => exact hf none
  | bareArgument p caller text | quotedArgument p caller text => exact hf (some text)
  | escapeArgument u => exact u.settle_free hP none
  | _ => exact hP.noneOf (by simp [atEnd, Instr.isCounted, Instr.isMargin, Instr.isEmit])

/-- A frame that goes on has the same in store, and stays as it is or takes no start of a line. -/
theorem GoesOn.isPlain_or_eq (h : f.GoesOn t g) (hf : f.IsFreeOf P) : g.IsPlain P ∨ g = f := by
  cases h with
  | skip | rest => exact Or.inr rfl
  | bare | quote | moreBare | moreQuoted => exact Or.inl ⟨hf, rfl⟩
  | moreTitle | opened => exact Or.inl ⟨trivial, rfl⟩

/-- The frames of text have nothing in store but the end of a style and a space. The rest of a line
has nothing at all in store. -/
theorem isFreeOf_of_isOfText (hclose : P .closeScope = false) (hspace : P .space = false)
    (hf : f.isOfText = true) : f.IsFreeOf P := by
  unfold isOfText at hf
  split at hf
  case h_13 => exact List.forall_mem_nil _
  case h_14 => exact List.forall_mem_singleton.mpr hclose
  case h_15 => exact List.forall_mem_singleton.mpr hspace
  case h_16 => exact Bool.noConfusion hf
  all_goals trivial

/-- The frames of text take no start of a line. -/
theorem mayTakeLine_of_isOfText (hf : f.isOfText = true) : f.mayTakeLine = false := by
  cases f with
  | argumentsOrLine | tag | argument => exact Bool.noConfusion hf
  | _ => rfl

end Frame

/-- Text brings plain instructions and leaves plain frames. -/
theorem IsSortOfStored.holdOfText (hP : IsSortOfStored P) :
    HoldOfText (fun i => i.isEmit = false → P i = false) (Frame.IsPlain P) where
  instr := fun hi he => hP _ (Instr.isCounted_of_isOfText hi) he
  frame := fun hf => ⟨Frame.isFreeOf_of_isOfText (hP _ rfl rfl) (hP _ rfl rfl) hf,
    Frame.mayTakeLine_of_isOfText hf⟩
  goesOn := fun h hf => (h.isPlain_or_eq hf.free).elim id fun heq => heq ▸ hf
  atEnd := fun hf => (Frame.atEnd_free hP hf.free).noneButShown
  rest := fun h => ⟨(noneOf_append.mp (h.elim (·.free (some _)) (·.free (some _)))).2, rfl⟩

namespace Step

/-- A token other than a macro within a word. -/
theorem word_plain (hP : IsSortOfStored P) (ht : t.kind ≠ .macroName) :
    (word isolating t).IsPlain P :=
  (isClosed_isPlain P).word hP.holdOfText (fun _ => takesFreely_isPlain hP t) fun hk => absurd hk ht

/-- A token other than a macro as the first on a line of text. -/
theorem line_plain (hP : IsSortOfStored P) (ht : t.kind ≠ .macroName) :
    (line isolating t).IsPlain P :=
  (isClosed_isPlain P).line hP.holdOfText (word_plain hP ht)

/-- A token other than a macro at the empty stack. -/
theorem top_plain (hP : IsSortOfStored P) (ht : t.kind ≠ .macroName) :
    (top isolating t).IsPlain P :=
  (isClosed_isPlain P).top hP.holdOfText (fun _ => takesFreely_isPlain hP t) fun hk => absurd hk ht

end Step

namespace Frame

/-- **Text brings nothing that is not in store.**

**Proof sketch.** By cases on the outcome. A complete frame brings what it has in store, and a frame
that goes on brings nothing and may stay as it is. The other steps are those of text. -/
theorem react_text (isolating : Bool) (hP : IsSortOfStored P) (hf : f.IsFreeOf P)
    (ht : t.kind ≠ .macroName) : (f.react isolating t).IsPlain P f := by
  have hclosed := Step.isClosed_isPlain P
  have htake := Step.takesFreely_isPlain hP t
  have hQ := hP.holdOfText
  have hword : (Step.word isolating t).IsPlain P := Step.word_plain hP ht
  have hnone : NoneOf P [] := List.forall_mem_nil _
  have hone : ∀ {g : Frame}, g.IsPlain P → Step.IsPlain P ⟨[.consume t], [g]⟩ := fun hg =>
    htake hnone.noneButShown (List.forall_mem_singleton.mpr hg)
  have hout := f.outcome_react isolating t
  generalize f.react isolating t = r at hout ⊢
  cases hout with
  | complete => exact atEnd_free hP hf
  | missing => exact List.forall_mem_singleton.mpr (hP _ rfl rfl)
  | fontEnd => exact hnone
  | goesOn f g _ h =>
    -- a frame that goes on is one of text, or it stays what it is
    rcases h.isPlain_or_eq hf with hg | rfl
    · exact Or.inl (hone hg)
    · exact Or.inr ⟨List.forall_mem_singleton.mpr fun _ => hP _ rfl rfl, rfl⟩
  | title => exact Or.inl (hone ⟨trivial, rfl⟩)
  | close => exact Or.inl (htake hnone.noneButShown (List.forall_mem_nil _))
  | blank next other =>
    exact Or.inl (htake (List.forall_mem_singleton.mpr (hQ.instr rfl))
      (List.forall_mem_singleton.mpr (hQ.frame rfl)))
  | line => exact Or.inl (Step.line_plain hP ht)
  | word f h =>
    have hpasses : f.mayTakeLine = false := by rcases h with rfl | rfl <;> rfl
    exact Or.inl (hclosed.above ⟨hf, hpasses⟩ hword)
  | arguments f first => exact Or.inl (hclosed.arguments hQ first (fun _ => htake) hword)
  | inFont first next other => exact Or.inl (hclosed.inFont hQ next other (fun _ => htake) hword)
  | marker =>
    exact Or.inl (hclosed.above (hQ.frame rfl) (hclosed.argument hQ (fun _ => htake) hword))
  | call hk => exact absurd hk ht
  | bare p caller text =>
    -- the argument is settled: its first half is sent out, its second is what the rest of the line
    -- leaves
    obtain ⟨hfirst, hrest⟩ := noneOf_append.mp (hf (some text))
    exact Or.inl
      (hclosed.append_out (s := ⟨[.consume t], _⟩) hfirst.noneButShown (hone ⟨hrest, rfl⟩))
  | quote p caller text =>
    obtain ⟨hfirst, hrest⟩ := noneOf_append.mp (hf (some text))
    exact Or.inl (htake hfirst.noneButShown (List.forall_mem_singleton.mpr ⟨hrest, rfl⟩))
  | command => exact Or.inl (Step.TakesFreely.command hQ htake)
  | argument f u bracketed =>
    exact Or.inl (htake (u.settle_free hP _).noneButShown
      (forall_mem_closing (hQ.frame rfl) bracketed))
  | character command bracketed =>
    exact Or.inl (htake (fun i hi => hQ.instr (isOfText_of_mem_characterNamed hi))
      (forall_mem_closing (hQ.frame rfl) bracketed))

/-- **The start of a line is passed on, as the end would be.** Where the line begins with a macro,
only a tag may take it, and an empty line is taken by none.

**Proof sketch.** By cases on the frame. Most are complete where a line starts; the three that may
take one look at its first token, and the conditions say that they pass it on. An escape behind its
parenthesis brings a fault that speaks of another token than at the end. -/
theorem react_of_startsLine (isolating : Bool)
    (hP : ∀ found, P (.fault (.missingArgument found)) = false) (ht : t.IsPlaced)
    (hl : t.startsLine = true)
    (hf : f.mayTakeLine = false ∨ (t.kind = .macroName ∧ f ≠ .tag) ∨ t.kind = .emptyLine) :
    ∃ out, f.react isolating t = .pass out ∧ out.filter P = f.atEnd.filter P := by
  obtain ⟨hargument, hbracket⟩ := ht.not_part hl
  cases f with
  | tag =>
    rcases hf with hf | ⟨-, hf⟩ | hf
    · exact Bool.noConfusion hf
    · exact absurd rfl hf
    · exact ⟨[], by simp [react, hf], rfl⟩
  | argumentsOrLine =>
    have hk : t.kind = .macroName ∨ t.kind = .emptyLine :=
      (hf.resolve_left (by simp [mayTakeLine])).imp_left And.left
    exact ⟨[], by simp [react, hl, hk], rfl⟩
  | argument p caller =>
    have hk : (p = .title && !(t.kind = .macroName || t.kind = .emptyLine)) = false := by
      cases p with
      | title =>
        have hk : t.kind = .macroName ∨ t.kind = .emptyLine :=
          (hf.resolve_left (by simp [mayTakeLine])).imp_left And.left
        rcases hk with hk | hk
        · simp [hk]
        · simp [hk]
      | _ => rfl
    refine ⟨(argument p caller).atEnd, ?_, rfl⟩
    simp only [react, if_pos hl, hk, Bool.false_eq_true, if_false, atEnd]
  | openedArgument u bracketed =>
    -- the fault speaks of the token that is found, but does not count
    refine ⟨[.fault (.missingArgument (some t))], by simp only [react, if_neg hargument], ?_⟩
    simp [atEnd, hP]
  | closingBracket => exact ⟨[], by simp only [react, if_neg hbracket], rfl⟩
  | _ => exact ⟨_, by simp only [react, hl, Bool.true_or, if_true, atEnd], rfl⟩

/-- A line of text is taken by the frames that wait for it, as a line or as a title. A tag and
arguments take it as a line, a heading as its title. -/
theorem react_of_mayTakeLine (isolating : Bool) (hf : f.mayTakeLine = true)
    (hl : t.startsLine = true) (hk : t.kind ≠ .macroName) (hempty : t.kind ≠ .emptyLine) :
    f.react isolating t = .take (Step.line isolating t) ∨
      f.react isolating t = .take ⟨[.consume t], [.titleLine t.value]⟩ := by
  cases f with
  | tag => exact Or.inl (by simp only [react])
  | argumentsOrLine => exact Or.inl (by simp [react, hl, hk, hempty])
  | argument p caller =>
    cases p with
    | title => exact Or.inr (by simp [react, hl, hk, hempty])
    | _ => exact Bool.noConfusion hf
  | _ => exact Bool.noConfusion hf

/-- A macro is passed on by all frames but a tag, with nothing that is not in store. -/
theorem react_macroName (isolating : Bool) (hP : IsSortOfStored P) (hf : f.IsFreeOf P)
    (ht : t.IsPlaced) (hk : t.kind = .macroName) (hne : f ≠ .tag) :
    ∃ out, f.react isolating t = .pass out ∧ NoneOf P out := by
  obtain ⟨out, hreact, hout⟩ := react_of_startsLine (P := P) (f := f) isolating
    (fun _ => hP _ rfl rfl) ht (ht.startsLine_of_macroName hk) (Or.inr (Or.inl ⟨hk, hne⟩))
  refine ⟨out, hreact, noneOf_iff_filter_eq_nil.mpr ?_⟩
  rw [hout, (atEnd_free hP hf).filter_eq]

end Frame

/-! ## Stacks -/

/-- A stack takes a token, or passes it to whatever lies below. By induction on the stack: the first
frame that does not pass the token on takes it. -/
theorem feed_cases (isolating : Bool) (fs : List Frame) (t : Token) :
    (∃ s : Step, ∀ below, feed isolating (fs ++ below) t = ⟨s.out, s.frames ++ below⟩) ∨
      ∃ out, ∀ below, feed isolating (fs ++ below) t =
        ⟨out ++ (feed isolating below t).out, (feed isolating below t).frames⟩ := by
  induction fs with
  | nil => exact Or.inr ⟨[], fun _ => rfl⟩
  | cons f fs ih =>
    cases hreact : f.react isolating t with
    | take s =>
      refine Or.inl ⟨⟨s.out, s.frames ++ fs⟩, fun below => ?_⟩
      simp only [List.cons_append, feed, hreact, List.append_assoc]
    | pass out =>
      rcases ih with ⟨s, hfeed⟩ | ⟨more, hfeed⟩
      · refine Or.inl ⟨⟨out ++ s.out, s.frames⟩, fun below => ?_⟩
        simp only [List.cons_append, feed, hreact, hfeed]
      · refine Or.inr ⟨out ++ more, fun below => ?_⟩
        simp only [List.cons_append, feed, hreact, hfeed, List.append_assoc]

/-- A stack that brings nothing of a sort and does not wait for a tag. -/
def IsTextual (P : Instr → Bool) (stack : List Frame) : Prop :=
  ∀ f ∈ stack, f.IsFreeOf P ∧ f ≠ .tag

/-- A plain frame is textual. -/
theorem Frame.IsPlain.textual (h : f.IsPlain P) : f.IsFreeOf P ∧ f ≠ .tag := by
  refine ⟨h.free, ?_⟩
  rintro rfl
  exact Bool.noConfusion h.passes

/-- A plain step leaves textual frames. -/
theorem Step.IsPlain.isTextual (h : s.IsPlain P) : IsTextual P s.frames :=
  fun f hf => (h.frames f hf).textual

/-- Text that is read with a stack brings nothing that is not in store but the texts that it shows.
The frames afterwards were there before, or are plain.

**Proof sketch.** By induction on the stack. Frames that pass the token on bring what they have in
store, and the one that takes it leaves plain frames or itself. -/
theorem feed_text (isolating : Bool) (hP : IsSortOfStored P) (hfs : ∀ f ∈ fs, f.IsFreeOf P)
    (ht : t.kind ≠ .macroName) :
    NoneButShown P (feed isolating fs t).out ∧
      ∀ f ∈ (feed isolating fs t).frames, f ∈ fs ∨ f.IsPlain P := by
  induction fs with
  | nil =>
    have htop : (Step.top isolating t).IsPlain P := Step.top_plain hP ht
    exact ⟨htop.free, fun f hf => Or.inr (htop.frames f hf)⟩
  | cons f fs ih =>
    have hreact := Frame.react_text isolating hP (hfs f List.mem_cons_self) ht
    simp only [feed]
    cases h : f.react isolating t with
    | take s =>
      rw [h] at hreact
      rcases hreact with hs | ⟨hout, hframes⟩
      · refine ⟨hs.free, fun g hg => ?_⟩
        rcases List.mem_append.mp hg with hg | hg
        · exact Or.inr (hs.frames g hg)
        · exact Or.inl (List.mem_cons_of_mem f hg)
      · refine ⟨hout, fun g hg => Or.inl ?_⟩
        have hg : g ∈ s.frames ++ fs := hg
        rwa [hframes] at hg
    | pass out =>
      rw [h] at hreact
      have hout : NoneOf P out := hreact
      obtain ⟨hmore, hframes⟩ := ih fun g hg => hfs g (List.mem_cons_of_mem f hg)
      exact ⟨hout.noneButShown.append hmore,
        fun g hg => (hframes g hg).imp_left (List.mem_cons_of_mem f)⟩

/-- A stack that waits for no tag goes on waiting for none. -/
theorem feed_textual (isolating : Bool) (hP : IsSortOfCounted P) (hfs : IsTextual P fs)
    (ht : t.kind ≠ .macroName) :
    NoneOf P (feed isolating fs t).out ∧ IsTextual P (feed isolating fs t).frames := by
  obtain ⟨hout, hframes⟩ := feed_text isolating hP.stored (fun f hf => (hfs f hf).1) ht
  refine ⟨hout.noneOf hP, fun f hf => ?_⟩
  rcases hframes f hf with hf | hf
  · exact hfs f hf
  · exact hf.textual

/-- The end of the tokens brings none of a sort from frames that have none in store. -/
theorem finish_free (hP : IsSortOfStored P) (hfs : IsTextual P fs) : NoneOf P (finish fs) := by
  intro i hi
  obtain ⟨f, hf, hi⟩ := List.mem_flatMap.mp hi
  exact Frame.atEnd_free hP (hfs f hf).1 i hi

end Manpage
