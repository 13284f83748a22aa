import Manpage.Program.Frame

/-!
# What a frame's reaction can be

A frame has few ways to react to a token. It is complete, and passes the token on with what it
would do at the end; it takes the token and goes on; or it takes the token in a step that depends
on what the frame is for. The relation here lists them once, each with its condition. A property of
all reactions is then shown by cases on the relation, and not by those on frames and tokens.

## Main definitions

* `Manpage.Frame.swallows` — a frame that keeps tokens from being shown.
* `Manpage.Frame.GoesOn` — the frame that is left where a token is taken and nothing is done.
* `Manpage.Frame.Outcome` — the reactions of a frame to a token.

## Main results

* `Manpage.Frame.outcome_react` — what a frame does is one of these.
-/

namespace Manpage

variable {t : Token} {f g : Frame}

namespace Frame

/-! ## Frames that go on -/

/-- A frame that takes the tokens of its line without showing them. -/
def swallows : Frame → Bool
  | .restOfLine _ | .argument _ _ | .bareArgument _ _ _ | .quotedArgument _ _ _ | .titleLine _ =>
    true
  | _ => false

/-- A frame that skips blanks. -/
def skipsBlanks : Frame → Bool
  | .arguments _ | .argumentsOrLine | .alternating true _ _ | .marker | .argument _ _ => true
  | _ => false

/-- A frame takes a token of its line and does nothing with it but to enter it into the trace. The
frame that is left in its place is the frame itself, or one that has read more. -/
inductive GoesOn (t : Token) : Frame → Frame → Prop
  /-- blanks before an argument -/
  | skip (f : Frame) (hf : f.skipsBlanks = true) (hk : t.kind = .blank) : GoesOn t f f
  /-- the rest of a line -/
  | rest (out : List Instr) : GoesOn t (.restOfLine out) (.restOfLine out)
  /-- the first token of an argument -/
  | bare (p : Purpose) (caller : Token) (hb : t.kind ≠ .blank) (hq : t.kind ≠ .quote) :
    GoesOn t (.argument p caller) (.bareArgument p caller t.value)
  /-- the quote that opens an argument -/
  | quote (p : Purpose) (caller : Token) (hq : t.kind = .quote) :
    GoesOn t (.argument p caller) (.quotedArgument p caller [])
  /-- more of an argument without quotes -/
  | moreBare (p : Purpose) (caller : Token) (text : Text) (hb : t.kind ≠ .blank) :
    GoesOn t (.bareArgument p caller text) (.bareArgument p caller (text ++ t.value))
  /-- more of an argument between quotes -/
  | moreQuoted (p : Purpose) (caller : Token) (text : Text) (hq : t.kind ≠ .quote) :
    GoesOn t (.quotedArgument p caller text) (.quotedArgument p caller (text ++ t.value))
  /-- more of a title -/
  | moreTitle (text : Text) : GoesOn t (.titleLine text) (.titleLine (text ++ t.value))
  /-- the parenthesis or bracket before the argument of an escape -/
  | opened (u : ArgumentUse) (bracketed : Bool)
    (hk : t.kind = if bracketed then .openBracket else .openParen) :
    GoesOn t (.escapeArgument u) (.openedArgument u bracketed)

/-- A frame that is not there to swallow tokens goes on with no macro. -/
theorem GoesOn.ne_macroName_or (h : f.GoesOn t g) :
    t.kind ≠ .macroName ∨ f.swallows = true := by
  cases h with
  | skip _ _ hk => exact Or.inl (by simp [hk])
  | opened _ bracketed hk => exact Or.inl (by cases bracketed <;> simp [hk])
  | _ => exact Or.inr rfl

/-- What holds of the bracket that may close a name holds of all frames that a name leaves. -/
theorem forall_mem_closing {F : Frame → Prop} (h : F .closingBracket) (bracketed : Bool) :
    ∀ f ∈ (if bracketed then [closingBracket] else []), F f := by
  cases bracketed with
  | false => exact List.forall_mem_nil _
  | true => exact List.forall_mem_singleton.mpr h

/-! ## Outcomes -/

/-- The reactions of a frame to a token, each with the condition that it comes under.

A frame that passes the token on does what it would do at the end, with two exceptions: the fault
of a missing argument speaks of the token found in its place, and the end of a font escape leaves a
space at the end of a line only. -/
inductive Outcome (isolating : Bool) (t : Token) : Frame → Reaction → Prop
  /-- a complete frame -/
  | complete (f : Frame) (hf : f.swallows = true ∨ f = .fontEnd → t.startsLine = true) :
    Outcome isolating t f (.pass f.atEnd)
  | missing (u : ArgumentUse) (bracketed : Bool) (hk : t.kind ≠ .argument) :
    Outcome isolating t (.openedArgument u bracketed) (.pass [.fault (.missingArgument (some t))])
  | fontEnd (hl : t.startsLine = false) : Outcome isolating t .fontEnd (.pass [])
  /-- a frame that takes the token and goes on -/
  | goesOn (f g : Frame) (hl : t.startsLine = false) (h : f.GoesOn t g) :
    Outcome isolating t f (.take ⟨[.consume t], [g]⟩)
  /-- the next line as a title -/
  | title (caller : Token) (hl : t.startsLine = true) (hk : t.kind ≠ .macroName) :
    Outcome isolating t (.argument .title caller) (.take ⟨[.consume t], [.titleLine t.value]⟩)
  /-- the quote or the bracket that closes an argument -/
  | close (f : Frame)
    (hf : f = .quoted ∧ t.kind = .quote ∨ f = .closingBracket ∧ t.kind = .closeBracket) :
    Outcome isolating t f (.take ⟨[.consume t], []⟩)
  /-- the blank behind an argument in a font of its own -/
  | blank (next other : Font) (hk : t.kind = .blank) :
    Outcome isolating t (.alternating false next other)
      (.take ⟨[.consume t, .blank t.value], [.alternating false next other]⟩)
  /-- text on a line -/
  | line (f : Frame) (hf : f = .line ∨ f = .argumentsOrLine ∨ f = .tag)
    (ht : t.startsLine = false ∨ t.kind ≠ .macroName) :
    Outcome isolating t f (.take (Step.line isolating t))
  /-- more of a word or of a quoted argument -/
  | word (f : Frame) (hf : f = .unit ∨ f = .quoted) (hl : t.startsLine = false) :
    Outcome isolating t f (.take ((Step.word isolating t).above f))
  /-- an argument that is shown -/
  | arguments (f : Frame) (first : Bool)
    (hf : f = .arguments first ∨ f = .argumentsOrLine ∧ first = true)
    (hl : t.startsLine = false) :
    Outcome isolating t f (.take (Step.arguments isolating first t))
  | inFont (first : Bool) (next other : Font) (hl : t.startsLine = false) :
    Outcome isolating t (.alternating first next other)
      (.take (Step.inFont isolating next other t))
  | marker (hl : t.startsLine = false) :
    Outcome isolating t .marker
      (.take ((Step.argument isolating t).above (.afterwards [.space])))
  /-- a macro on the line of a tag -/
  | call (hk : t.kind = .macroName) : Outcome isolating t .tag (.take (Step.call isolating t))
  /-- the blank behind the argument of a macro -/
  | bare (p : Purpose) (caller : Token) (text : Text) (hl : t.startsLine = false)
    (hk : t.kind = .blank) :
    Outcome isolating t (.bareArgument p caller text)
      (.take ⟨(p.settle caller (some text)).1 ++ [.consume t],
        [.restOfLine (p.settle caller (some text)).2]⟩)
  /-- the quote behind the argument of a macro -/
  | quote (p : Purpose) (caller : Token) (text : Text) (hl : t.startsLine = false)
    (hk : t.kind = .quote) :
    Outcome isolating t (.quotedArgument p caller text)
      (.take ⟨.consume t :: (p.settle caller (some text)).1,
        [.restOfLine (p.settle caller (some text)).2]⟩)
  /-- the command of an escape -/
  | command (hk : t.kind = .command) : Outcome isolating t .escape (.take (Step.command t))
  /-- the argument of an escape -/
  | argument (f : Frame) (u : ArgumentUse) (bracketed : Bool)
    (hf : f = .escapeArgument u ∧ bracketed = false ∨ f = .openedArgument u bracketed)
    (hk : t.kind = .argument) :
    Outcome isolating t f (.take ⟨.consume t :: u.settle (some t.value),
      if bracketed then [.closingBracket] else []⟩)
  /-- the name of a character -/
  | character (command : Token) (bracketed : Bool) (hk : t.kind = .argument) :
    Outcome isolating t (.characterName command bracketed)
      (.take ⟨.consume t :: characterNamed command t.value,
        if bracketed then [.closingBracket] else []⟩)

/-- The first token of a line finds most frames complete. The exceptions are a tag, of which the
line is all that follows, a macro whose arguments may be the next line, the title of a heading, and
the frames of escapes, which look at the kind of the token alone. -/
theorem outcome_of_startsLine (isolating : Bool) (f : Frame) (hl : t.startsLine = true) :
    f.Outcome isolating t (f.react isolating t) := by
  have hcomplete : f.Outcome isolating t (.pass f.atEnd) := .complete f fun _ => hl
  cases f with
  | argumentsOrLine =>
    simp only [react, hl, if_true]
    split
    · exact hcomplete
    · rename_i hk
      simp only [Bool.or_eq_true, decide_eq_true_eq, not_or] at hk
      exact .line _ (by simp) (Or.inr hk.1)
  | tag =>
    simp only [react]
    split
    · exact hcomplete
    · exact .call ‹_›
    · exact .line _ (by simp) (Or.inr ‹_›)
  | argument p caller =>
    simp only [react, hl, if_true]
    split
    · rename_i hk
      simp only [Bool.and_eq_true, decide_eq_true_eq, Bool.not_eq_true', Bool.or_eq_false_iff,
        decide_eq_false_iff_not] at hk
      obtain ⟨rfl, hk, -⟩ := hk
      exact .title caller hl hk
    · exact hcomplete
  | openedArgument u bracketed =>
    simp only [react]
    split
    · exact .argument _ u bracketed (Or.inr rfl) ‹_›
    · exact .missing u bracketed ‹_›
  | closingBracket =>
    simp only [react]
    split
    · exact .close _ (Or.inr ⟨rfl, ‹_›⟩)
    · exact hcomplete
  | _ =>
    simp only [react, hl, Bool.true_or, if_true]
    exact hcomplete

/-- The reactions to the other tokens of a line.

**Proof sketch.** The case walk over the frames, with the reaction of each split where it looks at
the token: at its kind, mostly, since the token starts no line. Each branch is one constructor. It
is the only proof that unfolds all reactions; what is said of all frames elsewhere goes by cases on
the outcome. -/
theorem outcome_within (isolating : Bool) (f : Frame) (hl : t.startsLine = false) :
    f.Outcome isolating t (f.react isolating t) := by
  have hcomplete : f.swallows = false ∧ f ≠ .fontEnd → f.Outcome isolating t (.pass f.atEnd) :=
    fun hf => .complete f fun h => absurd h (by simp [hf])
  have hskip : f.skipsBlanks = true → t.kind = .blank →
      f.Outcome isolating t (.take ⟨[.consume t], [f]⟩) := fun hf hk =>
    .goesOn f f hl (.skip f hf hk)
  cases f with
  | line =>
    simp only [react, hl, Bool.false_eq_true, if_false]
    exact .line _ (by simp) (Or.inl hl)
  | unit =>
    simp only [react, hl, Bool.false_or, decide_eq_true_eq]
    split
    · exact hcomplete ⟨rfl, by simp⟩
    · exact .word _ (Or.inl rfl) hl
  | arguments first =>
    simp only [react, hl, Bool.false_eq_true, if_false]
    split
    · exact hskip rfl ‹_›
    · exact .arguments _ first (Or.inl rfl) hl
  | quoted =>
    simp only [react, hl, Bool.false_eq_true, if_false]
    split
    · exact .close _ (Or.inl ⟨rfl, ‹_›⟩)
    · exact .word _ (Or.inr rfl) hl
  | argumentsOrLine =>
    simp only [react, hl, Bool.false_eq_true, if_false]
    split
    · exact hskip rfl ‹_›
    · exact .arguments _ true (Or.inr ⟨rfl, rfl⟩) hl
  | alternating first next other =>
    simp only [react, hl, Bool.false_eq_true, if_false]
    split
    · cases first with
      | true => exact hskip rfl ‹_›
      | false => exact .blank next other ‹_›
    · exact .inFont first next other hl
  | marker =>
    simp only [react, hl, Bool.false_eq_true, if_false]
    split
    · exact hskip rfl ‹_›
    · exact .marker hl
  | tag =>
    simp only [react]
    split
    · exact hcomplete ⟨rfl, by simp⟩
    · exact .call ‹_›
    · exact .line _ (by simp) (Or.inl hl)
  | restOfLine out =>
    simp only [react, hl, Bool.false_eq_true, if_false]
    exact .goesOn _ _ hl (.rest out)
  | afterwards out => exact hcomplete ⟨rfl, by simp⟩
  | argument p caller =>
    simp only [react, hl, Bool.false_eq_true, if_false]
    split
    · exact hskip rfl ‹_›
    · split
      · exact .goesOn _ _ hl (.quote p caller ‹_›)
      · exact .goesOn _ _ hl (.bare p caller ‹_› ‹_›)
  | bareArgument p caller text =>
    simp only [react, hl, Bool.false_eq_true, if_false]
    split
    · exact .bare p caller text hl ‹_›
    · exact .goesOn _ _ hl (.moreBare p caller text ‹_›)
  | quotedArgument p caller text =>
    simp only [react, hl, Bool.false_eq_true, if_false]
    split
    · exact .quote p caller text hl ‹_›
    · exact .goesOn _ _ hl (.moreQuoted p caller text ‹_›)
  | titleLine text =>
    simp only [react, hl, Bool.false_eq_true, if_false]
    exact .goesOn _ _ hl (.moreTitle text)
  | escape =>
    simp only [react, hl, Bool.false_or, decide_eq_true_eq, ite_not]
    split
    · exact .command ‹_›
    · exact hcomplete ⟨rfl, by simp⟩
  | escapeArgument u =>
    simp only [react, hl, Bool.false_eq_true, if_false]
    split
    · exact .goesOn _ _ hl (.opened u false ‹_›)
    · exact .goesOn _ _ hl (.opened u true ‹_›)
    · exact .argument _ u false (Or.inl ⟨rfl, rfl⟩) ‹_›
    · exact hcomplete ⟨rfl, by simp⟩
  | openedArgument u bracketed =>
    simp only [react]
    split
    · exact .argument _ u bracketed (Or.inr rfl) ‹_›
    · exact .missing u bracketed ‹_›
  | characterName command bracketed =>
    simp only [react, hl, Bool.false_or, decide_eq_true_eq, ite_not]
    split
    · exact .character command bracketed ‹_›
    · exact hcomplete ⟨rfl, by simp⟩
  | closingBracket =>
    simp only [react]
    split
    · exact .close _ (Or.inr ⟨rfl, ‹_›⟩)
    · exact hcomplete ⟨rfl, by simp⟩
  | fontEnd =>
    simp only [react, hl, Bool.false_eq_true, if_false]
    exact .fontEnd hl

/-- **What a frame does with a token** is one of the reactions that are listed. -/
theorem outcome_react (isolating : Bool) (f : Frame) (t : Token) :
    f.Outcome isolating t (f.react isolating t) := by
  cases hl : t.startsLine with
  | true => exact outcome_of_startsLine isolating f hl
  | false => exact outcome_within isolating f hl

end Frame

end Manpage
