import Manpage.Proofs.Program.Trace

/-!
# What belongs to a macro

The frames that a token leaves read tokens until all of them are complete, and the next token goes
to whatever lies below. So the program from a macro on has two parts: the instructions of the macro
with all that belongs to it, arguments, lines and other macros among them, and the program of the
tokens that remain, for the frames that the macro was called above. Where those frames come from
does not matter for the first part.

## Main definitions

* `Manpage.reactAll` — what several frames do with a token.
* `Manpage.Completion`, `Manpage.complete` — what frames read until they are complete.
* `Manpage.handler` — what belongs to a macro.
* `Manpage.IsCalled` — a macro that comes to a stack and is called above some of its frames.

## Main results

* `Manpage.programFrom_append_frames` — the program of frames, and of those below.
* `Manpage.exists_isCalled` — a macro is called unless a frame swallows it.
* `Manpage.program_append_handler` — the program around a macro.
-/

namespace Manpage

variable {f : Frame} {t : Token} {ts before after : List Token} {out : List Instr}
  {fs below stack : List Frame} {isolating : Bool}

/-! ## Several frames and a token -/

/-- The same reaction after some instructions. -/
def Reaction.preceded (out : List Instr) : Reaction → Reaction
  | .take s => .take ⟨out ++ s.out, s.frames⟩
  | .pass more => .pass (out ++ more)

/-- What several frames do with a token: one of them takes it, or all of them are complete. -/
def reactAll (isolating : Bool) : List Frame → Token → Reaction
  | [], _ => .pass []
  | f :: fs, t =>
    match f.react isolating t with
    | .take s => .take ⟨s.out, s.frames ++ fs⟩
    | .pass out => (reactAll isolating fs t).preceded out

/-- A token that frames pass on goes to the frames below. By induction on the frames: the first one
that takes the token ends it, and those that pass it on leave what they bring. -/
theorem feed_append (isolating : Bool) (fs below : List Frame) (t : Token) :
    feed isolating (fs ++ below) t =
      match reactAll isolating fs t with
      | .take s => ⟨s.out, s.frames ++ below⟩
      | .pass out => ⟨out ++ (feed isolating below t).out, (feed isolating below t).frames⟩ := by
  induction fs with
  | nil => rfl
  | cons f fs ih =>
    simp only [List.cons_append, feed, reactAll]
    cases f.react isolating t with
    | take s => simp only [List.append_assoc]
    | pass out =>
      simp only [ih]
      cases reactAll isolating fs t with
      | take s => rfl
      | pass more => simp only [Reaction.preceded, List.append_assoc]

/-! ## Frames until they are complete -/

/-- Instructions, and the tokens that remain after them. -/
structure Completion where
  out : List Instr
  rest : List Token

/-- What frames read until they are complete: their instructions, and the tokens that remain. -/
def complete (isolating : Bool) (fs : List Frame) : List Token → Completion
  | [] => ⟨finish fs, []⟩
  | t :: ts =>
    match reactAll isolating fs t with
    | .take s =>
      let c := complete isolating s.frames ts
      ⟨s.out ++ c.out, c.rest⟩
    | .pass out => ⟨out, t :: ts⟩

/-- **The program of frames is what they read until they are complete**, and then that of the frames
below with the tokens that remain. -/
theorem programFrom_append_frames (isolating : Bool) (fs below : List Frame) (ts : List Token) :
    programFrom isolating (fs ++ below) ts =
      (complete isolating fs ts).out ++
        programFrom isolating below (complete isolating fs ts).rest := by
  induction ts generalizing fs with
  | nil => exact List.flatMap_append
  | cons t ts ih =>
    simp only [programFrom, feed_append, complete]
    cases reactAll isolating fs t with
    | take s => simp only [ih, List.append_assoc]
    | pass out => simp only [programFrom, List.append_assoc]

/-- A token that frames take. -/
theorem complete_cons_of_take {s : Step} (h : reactAll isolating fs t = .take s)
    (ts : List Token) :
    complete isolating fs (t :: ts) =
      ⟨s.out ++ (complete isolating s.frames ts).out, (complete isolating s.frames ts).rest⟩ := by
  rw [complete, h]

/-- A frame that is complete at the next token, or at the end. Its last instructions come first, and
then those of the frames below. -/
theorem complete_cons_of_pass (h : ∀ t ∈ ts.head?, f.react isolating t = .pass out)
    (hend : f.atEnd = out) (fs : List Frame) :
    complete isolating (f :: fs) ts =
      ⟨out ++ (complete isolating fs ts).out, (complete isolating fs ts).rest⟩ := by
  cases ts with
  | nil => rw [complete, finish, List.flatMap_cons, hend, complete, finish]
  | cons t ts =>
    rw [complete, reactAll, h t rfl, complete]
    cases reactAll isolating fs t with
    | take s => simp only [Reaction.preceded, List.append_assoc]
    | pass more => rfl

/-! ## Macros -/

/-- What belongs to a macro: the instructions of its call, and what the frames of the call read
until they are complete. -/
def handler (isolating : Bool) (t : Token) (ts : List Token) : Completion :=
  let s := Step.call isolating t
  let c := complete isolating s.frames ts
  ⟨s.out ++ c.out, c.rest⟩

/-- A macro that comes to a stack is called after some instructions, above some frames that were
there. -/
def IsCalled (isolating : Bool) (stack : List Frame) (t : Token) (out : List Instr)
    (below : List Frame) : Prop :=
  feed isolating stack t =
    ⟨out ++ (Step.call isolating t).out, (Step.call isolating t).frames ++ below⟩

/-- A frame that swallows nothing passes a macro on, or calls it.

**Proof sketch.** That a step ends in the call of the macro is kept by all that steps are made of,
so that the walk over the frames need not be done again for it. -/
theorem Frame.react_call (isolating : Bool) (hk : t.kind = .macroName)
    (hf : f.swallows = false) :
    (∃ out, f.react isolating t = .pass out) ∨
      ∃ out below, f.react isolating t =
        .take ⟨out ++ (Step.call isolating t).out, (Step.call isolating t).frames ++ below⟩ := by
  let T : Step → Prop := fun s => ∃ out below,
    s = ⟨out ++ (Step.call isolating t).out, (Step.call isolating t).frames ++ below⟩
  have hclosed : Step.IsClosed (fun _ => True) (fun _ => True) T := by
    refine ⟨?_, ?_⟩
    · rintro s f - ⟨out, below, rfl⟩
      exact ⟨out, below ++ [f], by simp only [Step.above, List.append_assoc]⟩
    · rintro s i - ⟨out, below, rfl⟩
      exact ⟨i :: out, below, rfl⟩
  have hany : HoldOfText (fun _ => True) fun _ => True :=
    ⟨fun _ => trivial, fun _ => trivial, fun _ _ => trivial, fun _ _ _ => trivial, fun _ => trivial⟩
  have hreact : (f.react isolating t).Has (fun _ => True) T :=
    hclosed.react hany trivial
      (fun h => absurd (h.resolve_left (not_not.mpr hk)) (by simp [hf]))
      fun _ _ => ⟨[], [], by simp⟩
  cases hr : f.react isolating t with
  | take s =>
    rw [hr] at hreact
    obtain ⟨out, below, rfl⟩ := hreact
    exact Or.inr ⟨out, below, rfl⟩
  | pass out => exact Or.inl ⟨out, rfl⟩

/-- **A macro is called** wherever it stands, unless it comes to a frame that swallows it.

**Proof sketch.** By induction on the stack. The frame that takes the macro is the first that does
not pass it on; it swallows nothing, so that it calls the macro. -/
theorem exists_isCalled (isolating : Bool) (stack : List Frame) (hk : t.kind = .macroName)
    (h : (taker? isolating t stack).any Frame.swallows = false) :
    ∃ out below, IsCalled isolating stack t out below := by
  induction stack with
  | nil =>
    refine ⟨if t.startsLine then [.beginLine] else [], [], ?_⟩
    simp only [IsCalled, feed, Step.top, hk, List.append_nil]
    split <;> rfl
  | cons f stack ih =>
    simp only [taker?] at h
    cases hr : f.react isolating t with
    | pass out =>
      rw [hr] at h
      obtain ⟨more, below, hcalled⟩ := ih h
      refine ⟨out ++ more, below, ?_⟩
      unfold IsCalled at hcalled ⊢
      simp only [feed, hr, hcalled, List.append_assoc]
    | take s =>
      rw [hr] at h
      have hf : f.swallows = false := h
      obtain ⟨out, hpass⟩ | ⟨out, below, htake⟩ := Frame.react_call isolating hk hf
      · exact absurd (hr.symm.trans hpass) (by simp)
      · exact ⟨out, below ++ stack, by simp only [IsCalled, feed, htake, List.append_assoc]⟩

/-- **The program around a macro**: what comes before, what belongs to the macro, and what the
frames below the call make of the tokens that remain. -/
theorem program_append_handler
    (h : IsCalled isolating (feedAll isolating [] before).frames t out below) :
    program isolating (before ++ t :: after) =
      (feedAll isolating [] before).out ++ out ++ ((handler isolating t after).out ++
        programFrom isolating below (handler isolating t after).rest) := by
  rw [program, programFrom_append, programFrom, h, programFrom_append_frames]
  simp only [handler, List.append_assoc]

end Manpage
