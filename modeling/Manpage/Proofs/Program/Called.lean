import Manpage.Proofs.Program.Line

/-!
# Macros at the top of a source

A macro that comes where nothing waits for a tag completes all that is open, as the end of the
tokens would. So the program up to a macro is the program of the tokens before it, and what follows
is the program of the macro and of the tokens after it.

## Main results

* `Manpage.Frame.react_of_called` — a frame that meets a macro is complete.
* `Manpage.feed_called` — so is a stack.
* `Manpage.program_append_called` — the program up to a macro and the program from it on.
-/

namespace Manpage

variable {f : Frame} {t : Token} {s : Stage} {tokens before after : List Token}
  {stack : List Frame} {isolating : Bool}

/-! ## Frames -/

/-- A frame that meets a macro is complete, as at the end of the tokens. Only a tag takes the macro,
and only an argument that has been opened reports it. -/
theorem Frame.react_of_called (hk : t.kind = .macroName) (hl : t.startsLine = true)
    (htag : f ≠ .tag) (hopened : ∀ u bracketed, f ≠ .openedArgument u bracketed) :
    f.react isolating t = .pass f.atEnd := by
  cases f with
  | tag => exact absurd rfl htag
  | openedArgument u bracketed => exact absurd rfl (hopened u bracketed)
  | argument p caller => simp [react, atEnd, hk, hl]
  | _ => simp [react, atEnd, hk, hl]

/-- Behind the parts of an escape that has no opened argument, no frame waits for one. Such a frame
would be the topmost one, and it says that an argument is opened. -/
theorem Ready.ne_openedArgument (h : Ready tokens s stack) (hs : s.isOpened = false) :
    ∀ f ∈ stack, ∀ u bracketed, f ≠ .openedArgument u bracketed := by
  induction stack generalizing s with
  | nil => simp
  | cons f below ih =>
    obtain ⟨hawaits, -, -, hbelow⟩ := h
    rw [List.forall_mem_cons]
    refine ⟨?_, ih hbelow.ready rfl⟩
    rintro u bracketed rfl
    obtain rfl : s = .opened bracketed := hawaits
    exact Bool.noConfusion hs

/-! ## Stacks -/

/-- A macro that comes to a stack which waits for no tag comes to the empty stack, once all frames
are complete. -/
theorem feed_called (hk : t.kind = .macroName) (hl : t.startsLine = true) (htag : .tag ∉ stack)
    (hopened : ∀ f ∈ stack, ∀ u bracketed, f ≠ .openedArgument u bracketed) :
    feed isolating stack t =
      ⟨finish stack ++ (Step.top isolating t).out, (Step.top isolating t).frames⟩ := by
  induction stack with
  | nil => rfl
  | cons f below ih =>
    rw [List.mem_cons, not_or] at htag
    obtain ⟨hf, hbelow⟩ := List.forall_mem_cons.mp hopened
    simp only [feed, Frame.react_of_called hk hl (Ne.symm htag.1) hf, ih htag.2 hbelow]
    simp [finish]

/-- **The program up to a macro** is that of the tokens before it, where none of them has left a tag
to come. The rest is the program of the macro and the tokens after it.

**Proof sketch.** Fed to the frames that are open, the macro completes all of them, as none waits
for a tag and no escape is open behind its parenthesis. What this brings is what the end of the
tokens would have brought. -/
theorem program_append_called (hbefore : Stage.between.after before = some s)
    (hs : s.isOpened = false) (htag : .tag ∉ (feedAll isolating [] before).frames)
    (hk : t.kind = .macroName) (hl : t.startsLine = true) :
    program isolating (before ++ t :: after) =
      program isolating before ++ program isolating (t :: after) := by
  have hempty : Ready before .between [] := rfl
  have hready : Ready before s (feedAll isolating [] before).frames :=
    (feedAll_fits hempty hbefore fun _ h => h).ready
  have hfeed : feed isolating (feedAll isolating [] before).frames t =
      ⟨finish (feedAll isolating [] before).frames ++ (Step.top isolating t).out,
        (Step.top isolating t).frames⟩ :=
    feed_called hk hl htag (hready.ne_openedArgument hs)
  have hfirst : program isolating before =
      (feedAll isolating [] before).out ++ finish (feedAll isolating [] before).frames :=
    programFrom_eq isolating [] before
  rw [hfirst, program, programFrom_append, programFrom, hfeed]
  simp only [program, programFrom, feed, List.append_assoc]

end Manpage
