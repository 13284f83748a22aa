import Manpage.Proofs.Program.Sound
import Manpage.Proofs.Token.Stage

/-!
# Stacks of frames

The frames that are open between two tokens fit the stage of the escape that has been read: the
innermost waits for what may come, and all others wait for something new. Where a word is open, the
frames above it are those of an escape in it.

## Main definitions

* `Manpage.Frame.awaits` — what a frame waits for.
* `Manpage.Frame.isInner` — the frames that may stand above a word.
* `Manpage.Settled`, `Manpage.Ready` — stacks of frames that wait for something new, and for what
  may come at a stage.
* `Manpage.phaseOf` — whether a word is open in a stack.

## Main results

* `Manpage.Settled.append`, `Manpage.Ready.append` — frames may be put on a settled stack.
-/

namespace Manpage

/-! ## Frames -/

namespace Frame

/-- What a frame waits for: the frames of an escape for the next part of it, those that skip or
collect tokens for anything, and all others for something new. -/
def awaits (s : Stage) : Frame → Prop
  | escape => s = .command
  | escapeArgument _ => s = .argument
  | openedArgument _ bracketed => s = .opened bracketed
  | characterName _ bracketed => s = .name bracketed
  | closingBracket => s = .closing
  | restOfLine _ | argument _ _ | bareArgument _ _ _ | quotedArgument _ _ _ | titleLine _ => True
  | _ => s = .between

/-- The frames of an escape and of a comment, which may stand above a word. -/
def isInner : Frame → Bool
  | escape | escapeArgument _ | openedArgument _ _ | characterName _ _ | closingBracket | fontEnd =>
    true
  | restOfLine [] => true
  | _ => false

/-- What a frame keeps for later speaks of the given tokens. -/
def IsSound (tokens : List Token) : Frame → Prop
  | restOfLine out | afterwards out => ∀ i ∈ out, i.IsSound tokens ∧ i ≠ .openWord
  | argument p t | bareArgument p t _ | quotedArgument p t _ => IsCaller tokens p t
  | escapeArgument u | openedArgument u _ => u.IsSound tokens
  | characterName t _ => IsCommand tokens t
  | _ => True

end Frame

/-! ## Stacks -/

/-- A stack of frames each of which waits for something new. -/
def Settled (tokens : List Token) : List Frame → Prop
  | [] => True
  | f :: below =>
    f.awaits .between ∧ f.IsSound tokens ∧ (f.isInner = true ∨ Frame.unit ∉ below) ∧
      Settled tokens below

/-- A stack of frames the innermost of which waits for what may come at a stage. -/
def Ready (tokens : List Token) (s : Stage) : List Frame → Prop
  | [] => s = .between
  | f :: below =>
    f.awaits s ∧ f.IsSound tokens ∧ (f.isInner = true ∨ Frame.unit ∉ below) ∧
      Settled tokens below

/-- The phase that a stack of frames is in. -/
def phaseOf (stack : List Frame) : WordPhase :=
  if Frame.unit ∈ stack then .inside else .outside

variable {tokens : List Token} {s q : Stage} {t : Token} {f : Frame} {fs below stack : List Frame}

/-- A settled stack is ready between two escapes. -/
theorem Settled.ready (h : Settled tokens stack) : Ready tokens .between stack := by
  cases stack with
  | nil => rfl
  | cons f below => exact h

/-- With a unit among the frames, a word is open. -/
theorem phaseOf_of_mem (h : Frame.unit ∈ stack) : phaseOf stack = .inside :=
  if_pos h

/-- Without a unit among the frames, no word is open. -/
theorem phaseOf_of_not_mem (h : Frame.unit ∉ stack) : phaseOf stack = .outside :=
  if_neg h

/-- No word comes below a frame that may not stand above one. A frame of a word may stand above one,
and so may frames with no word below. -/
theorem isInner_or_not_mem_append (hi : f.isInner = true ∨ Frame.unit ∉ fs)
    (hunit : Frame.unit ∉ below ∨ ∀ g ∈ f :: fs, g.isInner = true) :
    f.isInner = true ∨ Frame.unit ∉ fs ++ below := by
  rcases hunit with hu | hall
  · refine hi.imp_right fun hnot hmem => ?_
    rcases List.mem_append.mp hmem with hmem | hmem
    · exact hnot hmem
    · exact hu hmem
  · exact Or.inl (hall f List.mem_cons_self)

/-- Frames above a settled stack without a word, and frames of an escape above any settled
stack. -/
theorem Settled.append (hfs : Settled tokens fs) (h : Settled tokens below)
    (hunit : Frame.unit ∉ below ∨ ∀ f ∈ fs, f.isInner = true) : Settled tokens (fs ++ below) := by
  induction fs with
  | nil => exact h
  | cons f fs ih =>
    obtain ⟨hf, hs, hi, hfs⟩ := hfs
    refine ⟨hf, hs, isInner_or_not_mem_append hi hunit, ih hfs ?_⟩
    exact hunit.imp_right fun hall g hg => hall g (List.mem_cons_of_mem f hg)

/-- Frames that are ready may stand above a settled stack, unless there is a word open below that
they do not belong to. -/
theorem Ready.append (hfs : Ready tokens s fs) (h : Settled tokens below)
    (hunit : Frame.unit ∉ below ∨ ∀ f ∈ fs, f.isInner = true) : Ready tokens s (fs ++ below) := by
  cases fs with
  | nil =>
    obtain rfl : s = .between := hfs
    exact h.ready
  | cons f fs =>
    obtain ⟨hf, hs, hi, hfs⟩ := hfs
    refine ⟨hf, hs, isInner_or_not_mem_append hi hunit, hfs.append h ?_⟩
    exact hunit.imp_right fun hall g hg => hall g (List.mem_cons_of_mem f hg)

end Manpage
