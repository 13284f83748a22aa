import Manpage.Program.Frame

/-!
# Programs

The program of a token list: the instructions of its tokens, read one at a time with a stack of
frames, and those of the frames that are left at the end. It depends on nothing but the tokens and
on whether one section is asked for.

## Main definitions

* `Manpage.feed` — one token read with a stack of frames.
* `Manpage.finish` — the end of the tokens with a stack of frames.
* `Manpage.program` — the program of a token list.
-/

namespace Manpage

/-- One token read with a stack of frames: the instructions, and the stack afterwards. -/
def feed (isolating : Bool) : List Frame → Token → Step
  | [], t => Step.top isolating t
  | f :: below, t =>
    match f.react isolating t with
    | .take s => ⟨s.out, s.frames ++ below⟩
    | .pass out =>
      let s := feed isolating below t
      ⟨out ++ s.out, s.frames⟩

/-- The end of the tokens with a stack of frames. -/
def finish (stack : List Frame) : List Instr :=
  stack.flatMap Frame.atEnd

/-- The program of the tokens that follow when a stack of frames is left. -/
def programFrom (isolating : Bool) (stack : List Frame) : List Token → List Instr
  | [] => finish stack
  | t :: ts =>
    let s := feed isolating stack t
    s.out ++ programFrom isolating s.frames ts

/-- The program of a token list. -/
def program (isolating : Bool) (tokens : List Token) : List Instr :=
  programFrom isolating [] tokens

end Manpage
