import Manpage.Program.Basic
import Manpage.Proofs.Program.Outcome

/-!
# Properties of steps

A token is taken in few ways: it is entered into the trace, with instructions for its text, or it
calls a macro; and frames and instructions of text come around that. A property of steps that is
true of the two ways, and that what comes around leaves alone, is true of every step.

The instructions and frames of text are the same for all tokens. Those of a macro come from its
call, and from what the call has left in store.

## Main definitions

* `Manpage.Instr.isOfText`, `Manpage.Frame.isOfText` — the instructions and frames of text.
* `Manpage.HoldOfText` — properties of instructions and of frames that hold of those of text.
* `Manpage.Step.IsClosed` — a property of steps that text around a step leaves alone.
* `Manpage.Reaction.Has` — a property of the step, where a token is taken.

## Main results

* `Manpage.Step.IsClosed.top`, `Manpage.Step.IsClosed.react`, `Manpage.Step.IsClosed.feed` — the
  empty stack, all frames, and all stacks.
-/

namespace Manpage

variable {Q : Instr → Prop} {F : Frame → Prop} {T : Step → Prop} {f g : Frame} {s : Step}
  {t : Token} {i : Instr} {out : List Instr} {fs : List Frame} {isolating : Bool}

/-! ## Text -/

/-- An instruction that text may bring by itself, apart from the record of its tokens. -/
def Instr.isOfText : Instr → Bool
  | .warn _ _ | .emit _ | .space | .blank _ | .beginLine | .endLine | .emptyLine | .openWord
  | .openStyle _ | .closeScope | .setStyle _ _ | .plainStyle | .enterSection _
  | .fault (.missingArgument _) | .fault (.strayPart _) => true
  | _ => false

/-- A frame that text may leave by itself. -/
def Frame.isOfText : Frame → Bool
  | .line | .unit | .arguments _ | .quoted | .alternating _ _ _ | .titleLine _ | .escape
  | .escapeArgument _ | .openedArgument _ _ | .characterName _ _ | .closingBracket | .fontEnd
  | .restOfLine [] | .afterwards [.closeScope] | .afterwards [.space] => true
  | _ => false

/-- A property of instructions and one of frames that hold of text: of its instructions and frames,
of what a frame goes on to, and of what a frame has in store. -/
structure HoldOfText (Q : Instr → Prop) (F : Frame → Prop) : Prop where
  instr : ∀ {i : Instr}, i.isOfText = true → Q i
  frame : ∀ {f : Frame}, f.isOfText = true → F f
  goesOn : ∀ {t : Token} {f g : Frame}, f.GoesOn t g → F f → F g
  atEnd : ∀ {f : Frame}, F f → ∀ i ∈ f.atEnd, Q i
  rest : ∀ {p : Purpose} {caller : Token} {text : Text},
    F (.bareArgument p caller text) ∨ F (.quotedArgument p caller text) →
      F (.restOfLine (p.settle caller (some text)).2)

/-- The argument of an escape is settled with instructions of text. They warn of it, or change the
font. -/
theorem ArgumentUse.isOfText_of_mem_settle {u : ArgumentUse} {argument : Option Text}
    (hi : i ∈ u.settle argument) : i.isOfText = true := by
  revert i
  unfold settle
  split
  · simp
  · simp [Instr.isOfText]
  · simp
  · split <;> simp [Instr.isOfText]

/-- A character that is given by its name is shown, or warned of. -/
theorem isOfText_of_mem_characterNamed {command : Token} {name : Text}
    (hi : i ∈ characterNamed command name) : i.isOfText = true := by
  revert i
  unfold characterNamed
  split <;> simp [Instr.isOfText]

/-! ## Steps -/

namespace Step

/-- A property of steps that frames and instructions of some properties leave alone. -/
structure IsClosed (Q : Instr → Prop) (F : Frame → Prop) (T : Step → Prop) : Prop where
  above : ∀ {s : Step} {f : Frame}, F f → T s → T (s.above f)
  preceded : ∀ {s : Step} {i : Instr}, Q i → T s → T (s.preceded i)

/-- Steps that enter a token, with instructions and frames of some properties, have a property. -/
def TakesFreely (Q : Instr → Prop) (F : Frame → Prop) (T : Step → Prop) (t : Token) : Prop :=
  ∀ ⦃out : List Instr⦄ ⦃frames : List Frame⦄, (∀ i ∈ out, Q i) → (∀ f ∈ frames, F f) →
    T ⟨.consume t :: out, frames⟩

/-- The command of an escape. A literal is shown, a font waits for its name with the space to come
below, and the others open one frame or warn. -/
theorem TakesFreely.command (hQ : HoldOfText Q F) (htake : TakesFreely Q F T t) :
    T (command t) := by
  unfold Step.command
  cases Escape.ofCommand t.value with
  | literal | unsupported =>
    exact htake (List.forall_mem_singleton.mpr (hQ.instr rfl)) (List.forall_mem_nil _)
  | font =>
    exact htake (List.forall_mem_nil _)
      (List.forall_mem_cons.mpr ⟨hQ.frame rfl, List.forall_mem_singleton.mpr (hQ.frame rfl)⟩)
  | ignored | string | special | comment =>
    exact htake (List.forall_mem_nil _) (List.forall_mem_singleton.mpr (hQ.frame rfl))

namespace IsClosed

variable (hT : IsClosed Q F T)

include hT

/-- What holds of a step holds with instructions in front of it. -/
theorem append_out (hout : ∀ i ∈ out, Q i) (h : T s) : T ⟨out ++ s.out, s.frames⟩ := by
  induction out with
  | nil => exact h
  | cons i out ih =>
    obtain ⟨hi, hout⟩ := List.forall_mem_cons.mp hout
    exact hT.preceded hi (ih hout)

/-- What holds of a step holds with frames below it. -/
theorem append_frames (hfs : ∀ f ∈ fs, F f) (h : T s) : T ⟨s.out, s.frames ++ fs⟩ := by
  induction fs generalizing s with
  | nil => rwa [List.append_nil]
  | cons f fs ih =>
    have hmore := ih (fun g hg => hfs g (List.mem_cons_of_mem f hg))
      (hT.above (hfs f List.mem_cons_self) h)
    rwa [Step.above, List.append_assoc, List.singleton_append] at hmore

variable (hQ : HoldOfText Q F)

include hQ

/-- A token of a word. A word, a quote or a lone command is shown, a backslash opens an escape, and
a stray part of one is a fault. -/
theorem word (htake : t.kind ≠ .macroName → TakesFreely Q F T t)
    (hcall : t.kind = .macroName → T (call isolating t)) : T (word isolating t) := by
  have hnone : ∀ i ∈ ([] : List Instr), Q i := List.forall_mem_nil _
  unfold Step.word
  cases hk : t.kind with
  | macroName => exact hcall hk
  | argument | openBracket | closeBracket | openParen =>
    exact hT.preceded (s := ⟨[.consume t], []⟩) (hQ.instr rfl)
      (htake (by simp [hk]) hnone (List.forall_mem_nil _))
  | emptyLine | blank | word | quote | command =>
    exact htake (by simp [hk]) (List.forall_mem_singleton.mpr (hQ.instr rfl))
      (List.forall_mem_nil _)
  | backslash =>
    exact htake (by simp [hk]) hnone (List.forall_mem_singleton.mpr (hQ.frame rfl))

/-- A token that begins a unit is taken as in the middle of a text, with a frame and an instruction
around that. -/
theorem unit (hword : T (Step.word isolating t)) : T (unit isolating t) :=
  hT.preceded (hQ.instr rfl) (hT.above (hQ.frame rfl) hword)

/-- On a line of text a token is taken as in a unit or as in the middle of a text, with the line
below it. -/
theorem line (hword : T (Step.word isolating t)) : T (line isolating t) := by
  refine hT.above (hQ.frame rfl) ?_
  unfold run
  split
  · exact hword
  · exact hT.unit hQ hword

/-- As an argument a token is taken as in a unit, or as the quote before the argument. -/
theorem argument (htake : t.kind ≠ .macroName → TakesFreely Q F T t)
    (hword : T (Step.word isolating t)) : T (argument isolating t) := by
  unfold Step.argument
  split
  · rename_i hk
    exact htake (by simp [hk]) (List.forall_mem_nil _)
      (List.forall_mem_singleton.mpr (hQ.frame rfl))
  · exact hT.unit hQ hword

/-- Among arguments a token is taken as an argument is, with a space before it and the other
arguments below. -/
theorem arguments (first : Bool) (htake : t.kind ≠ .macroName → TakesFreely Q F T t)
    (hword : T (Step.word isolating t)) : T (arguments isolating first t) := by
  have h := hT.above (f := .arguments false) (hQ.frame rfl) (hT.argument hQ htake hword)
  unfold Step.arguments
  split
  · exact h
  · exact hT.preceded (hQ.instr rfl) h

/-- In a font a token is taken as an argument is, with the scope of the font around it. -/
theorem inFont (font other : Font) (htake : t.kind ≠ .macroName → TakesFreely Q F T t)
    (hword : T (Step.word isolating t)) : T (inFont isolating font other t) :=
  hT.preceded (hQ.instr rfl) (hT.above (f := .alternating false other font) (hQ.frame rfl)
    (hT.above (f := .afterwards [.closeScope]) (hQ.frame rfl) (hT.argument hQ htake hword)))

/-- A token at the empty stack. A macro is called, an empty line is shown, and anything else is a
line of text; each begins a line if it starts one. -/
theorem top (htake : t.kind ≠ .macroName → TakesFreely Q F T t)
    (hcall : t.kind = .macroName → T (call isolating t)) : T (top isolating t) := by
  have hbegin : ∀ s : Step, T s → T (if t.startsLine then s.preceded .beginLine else s) := by
    intro s hs
    split
    · exact hT.preceded (hQ.instr rfl) hs
    · exact hs
  refine hbegin _ ?_
  split
  · rename_i hk
    exact hcall hk
  · rename_i hk
    exact htake (by simp [hk]) (List.forall_mem_singleton.mpr (hQ.instr rfl))
      (List.forall_mem_nil _)
  · exact hT.line hQ (hT.word hQ htake hcall)

end IsClosed

end Step

/-! ## Frames -/

/-- A property of the step, where a token is taken, and one of the instructions, where it is passed
on. -/
def Reaction.Has (Q : Instr → Prop) (T : Step → Prop) : Reaction → Prop
  | .take s => T s
  | .pass out => ∀ i ∈ out, Q i

/-- **What a frame does with a token**, if it has the property of frames: it passes the token on
with instructions of theirs, or takes it in a step that has the property of steps. A macro is
called, unless the frame swallows it.

**Proof sketch.** By cases on the outcome. A complete frame brings what it has in store. In all
other cases the token is entered with instructions and frames of text, or is taken in one of the
steps above. -/
theorem Step.IsClosed.react (hT : Step.IsClosed Q F T) (hQ : HoldOfText Q F) (hf : F f)
    (htake : t.kind ≠ .macroName ∨ f.swallows = true → Step.TakesFreely Q F T t)
    (hcall : t.kind = .macroName → f.swallows = false → T (Step.call isolating t)) :
    (f.react isolating t).Has Q T := by
  have hnone : ∀ i ∈ ([] : List Instr), Q i := List.forall_mem_nil _
  have hclosed : ∀ f ∈ ([] : List Frame), F f := List.forall_mem_nil _
  have htext : t.kind ≠ .macroName → Step.TakesFreely Q F T t := fun hk => htake (Or.inl hk)
  have hword : f.swallows = false → T (Step.word isolating t) := fun hs =>
    hT.word hQ htext fun hk => hcall hk hs
  have hout := f.outcome_react isolating t
  generalize f.react isolating t = r at hout ⊢
  cases hout with
  | complete => exact hQ.atEnd hf
  | missing => exact List.forall_mem_singleton.mpr (hQ.instr rfl)
  | fontEnd => exact hnone
  | goesOn f g _ h =>
    -- a frame that goes on swallows the token, or the token is no macro name
    exact htake h.ne_macroName_or hnone (List.forall_mem_singleton.mpr (hQ.goesOn h hf))
  | title => exact htake (Or.inr rfl) hnone (List.forall_mem_singleton.mpr (hQ.frame rfl))
  | close f h =>
    have hk : t.kind ≠ .macroName := by rcases h with ⟨-, hk⟩ | ⟨-, hk⟩ <;> simp [hk]
    exact htext hk hnone hclosed
  | blank next other hk =>
    exact htext (by simp [hk]) (List.forall_mem_singleton.mpr (hQ.instr rfl))
      (List.forall_mem_singleton.mpr hf)
  | line f h =>
    have hs : f.swallows = false := by rcases h with rfl | rfl | rfl <;> rfl
    exact hT.line hQ (hword hs)
  | word f h =>
    have hs : f.swallows = false := by rcases h with rfl | rfl <;> rfl
    exact hT.above hf (hword hs)
  | arguments f first h =>
    have hs : f.swallows = false := by rcases h with rfl | ⟨rfl, -⟩ <;> rfl
    exact hT.arguments hQ first htext (hword hs)
  | inFont first next other => exact hT.inFont hQ next other htext (hword rfl)
  | marker => exact hT.above (hQ.frame rfl) (hT.argument hQ htext (hword rfl))
  | call hk => exact hcall hk rfl
  | bare p caller text =>
    -- what the argument comes to is sent out before the token is consumed
    exact hT.append_out (s := ⟨[.consume t], _⟩)
      (fun i hi => hQ.atEnd hf i (List.mem_append_left _ hi))
      (htake (Or.inr rfl) hnone (List.forall_mem_singleton.mpr (hQ.rest (Or.inl hf))))
  | quote p caller text =>
    exact htake (Or.inr rfl) (fun i hi => hQ.atEnd hf i (List.mem_append_left _ hi))
      (List.forall_mem_singleton.mpr (hQ.rest (Or.inr hf)))
  | command hk => exact Step.TakesFreely.command hQ (htext (by simp [hk]))
  | argument f u bracketed h hk =>
    exact htext (by simp [hk]) (fun i hi => hQ.instr (u.isOfText_of_mem_settle hi))
      (Frame.forall_mem_closing (hQ.frame rfl) bracketed)
  | character command bracketed hk =>
    exact htext (by simp [hk]) (fun i hi => hQ.instr (isOfText_of_mem_characterNamed hi))
      (Frame.forall_mem_closing (hQ.frame rfl) bracketed)

/-- **A token that is read with a stack** is read in a step that has the property, where the frames
of the stack have theirs.

**Proof sketch.** Induction on the stack, as far as the frame that takes the token. -/
theorem Step.IsClosed.feed (hT : Step.IsClosed Q F T) (hQ : HoldOfText Q F) (hfs : ∀ f ∈ fs, F f)
    (htake : Step.TakesFreely Q F T t)
    (hcall : t.kind = .macroName → T (Step.call isolating t)) : T (feed isolating fs t) := by
  induction fs with
  | nil => exact hT.top hQ (fun _ => htake) hcall
  | cons f below ih =>
    obtain ⟨hf, hbelow⟩ := List.forall_mem_cons.mp hfs
    have hreact : (f.react isolating t).Has Q T :=
      hT.react hQ hf (fun _ => htake) fun hk _ => hcall hk
    simp only [Manpage.feed]
    cases hr : f.react isolating t with
    | take s =>
      rw [hr] at hreact
      exact hT.append_frames hbelow hreact
    | pass out =>
      rw [hr] at hreact
      exact hT.append_out hreact (ih hbelow)

end Manpage
