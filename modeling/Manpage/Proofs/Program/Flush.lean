import Manpage.Proofs.Program.Reading

/-!
# What columns do not steer

No token is read with regard to its column. The columns are handed on with the tokens, to the trace,
the warnings and the faults, and that is all. So when the columns of all tokens are forgotten, the
program is the same, up to the columns of the tokens in it.

## Main definitions

* `Manpage.Token.flush` — a token without its column.
* `Manpage.Instr.flush`, `Manpage.Frame.flush`, `Manpage.Step.flush` — what has been read of tokens,
  without their columns.

## Main results

* `Manpage.feed_flush` — a token without its column is read as the token.
* `Manpage.feed_congr` — tokens that differ in their columns alone are read alike.
-/

namespace Manpage

variable {isolating : Bool} {t u : Token} {f : Frame} {stack stack' : List Frame}

/-! ## Columns forgotten -/

/-- The token as if it stood at the beginning of its line: its column is forgotten. -/
def Token.flush (t : Token) : Token :=
  { t with column := 1 }

namespace Token

/-- A token has the same class without its column. -/
@[simp] theorem kind_flush (t : Token) : t.flush.kind = t.kind := rfl

/-- A token has the same value without its column. -/
@[simp] theorem value_flush (t : Token) : t.flush.value = t.value := rfl

/-- A token starts a line without its column just if it does with it. -/
@[simp] theorem startsLine_flush (t : Token) : t.flush.startsLine = t.startsLine := rfl

/-- Tokens that agree in everything but the column. -/
theorem flush_eq (hk : t.kind = u.kind) (hv : t.value = u.value) (hl : t.startsLine = u.startsLine)
    (hn : t.line = u.line) : t.flush = u.flush := by
  rw [flush, flush, hk, hv, hl, hn]

end Token

/-- The fault without the column of its token. -/
def Fault.flush : Fault → Fault
  | missingArgument found => missingArgument (found.map Token.flush)
  | strayPart t => strayPart t.flush
  | marginUnderflow t => marginUnderflow t.flush
  | f => f

/-- The instruction without the column of its token. -/
def Instr.flush : Instr → Instr
  | consume t => consume t.flush
  | note t => note t.flush
  | warn anomaly t => warn anomaly t.flush
  | closeMargins count t => closeMargins count t.flush
  | fault cause => fault cause.flush
  | i => i

/-- The use of an argument without the column of its command. -/
def ArgumentUse.flush : ArgumentUse → ArgumentUse
  | font command => font command.flush
  | ignored => ignored
  | string command => string command.flush

/-- The frame without the columns of its tokens. -/
def Frame.flush : Frame → Frame
  | restOfLine out => restOfLine (out.map Instr.flush)
  | afterwards out => afterwards (out.map Instr.flush)
  | argument p t => argument p t.flush
  | bareArgument p t text => bareArgument p t.flush text
  | quotedArgument p t text => quotedArgument p t.flush text
  | escapeArgument u => escapeArgument u.flush
  | openedArgument u bracketed => openedArgument u.flush bracketed
  | characterName command bracketed => characterName command.flush bracketed
  | f => f

/-- The step without the columns of its tokens. -/
def Step.flush (s : Step) : Step :=
  ⟨s.out.map Instr.flush, s.frames.map Frame.flush⟩

/-- The reaction without the columns of its tokens. -/
def Reaction.flush : Reaction → Reaction
  | take s => take s.flush
  | pass out => pass (out.map Instr.flush)

/-- Columns are forgotten in a step part by part, in its instructions and its frames. -/
theorem Step.flush_mk (out : List Instr) (frames : List Frame) :
    Step.flush ⟨out, frames⟩ = ⟨out.map Instr.flush, frames.map Frame.flush⟩ := rfl

/-- To forget the columns of a token that is taken is to forget those in the step. -/
theorem Reaction.flush_take (s : Step) : (take s).flush = take s.flush := rfl

/-- To forget the columns of a token that is passed on is to forget those in the instructions before
it. -/
theorem Reaction.flush_pass (out : List Instr) :
    (pass out).flush = pass (out.map Instr.flush) := rfl

/-- Columns are forgotten in either case, and have no say in which one it is. -/
theorem Reaction.flush_ite (c : Prop) [Decidable c] (r r' : Reaction) :
    (if c then r else r').flush = if c then r.flush else r'.flush :=
  apply_ite Reaction.flush c r r'

/-! ## Arguments -/

/-- A number is read the same from a token without its column, and the warning about it has none. -/
theorem readNumber_flush (t : Token) (text : Text) :
    readNumber t.flush text = ((readNumber t text).1.map Instr.flush, (readNumber t text).2) := by
  unfold readNumber
  split
  · rfl
  · split <;> rfl

/-- An amount is read the same from a token without its column. -/
theorem readAmount_flush (t : Token) (argument : Option Text) :
    readAmount t.flush argument =
      ((readAmount t argument).1.map Instr.flush, (readAmount t argument).2) := by
  cases argument with
  | none => rfl
  | some text => simp only [readAmount, readNumber_flush]

/-- A number of empty lines is read the same from a token without its column. Only its warnings name
the token. -/
theorem readSkip_flush (t : Token) (argument : Option Text) :
    readSkip t.flush argument =
      ((readSkip t argument).1.map Instr.flush, (readSkip t argument).2) := by
  cases argument with
  | none => rfl
  | some text =>
    simp only [readSkip, readNumber_flush]
    split
    · rfl
    · split
      · rfl
      · simp [Instr.flush]

/-- An argument is put to the same use for a macro without its column, both where it is complete and
at the end of the line. -/
theorem Purpose.settle_flush (p : Purpose) (t : Token) (argument : Option Text) :
    p.settle t.flush argument =
      ((p.settle t argument).1.map Instr.flush, (p.settle t argument).2.map Instr.flush) := by
  cases p <;> simp [settle, readSkip_flush, readAmount_flush, Instr.flush]

/-- The argument of an escape is put to the same use for a command without its column. Its warnings
name the command, which has lost its column as well. -/
theorem ArgumentUse.settle_flush (u : ArgumentUse) (argument : Option Text) :
    u.flush.settle argument = (u.settle argument).map Instr.flush := by
  cases u with
  | ignored => rfl
  | string => rfl
  | font command =>
    cases argument with
    | none => rfl
    | some name =>
      simp only [flush, settle]
      split <;> rfl

/-- The name of a character gives the same character for a command without its column. -/
theorem characterNamed_flush (command : Token) (name : Text) :
    characterNamed command.flush name = (characterNamed command name).map Instr.flush := by
  unfold characterNamed
  split <;> rfl

/-! ## Steps -/

namespace Step

/-- Columns are forgotten in a step above a frame as in the two apart. -/
theorem above_flush (s : Step) (f : Frame) : (s.above f).flush = s.flush.above f.flush := by
  simp [flush, above]

/-- Columns are forgotten in a step behind an instruction as in the two apart. -/
theorem preceded_flush (i : Instr) (s : Step) :
    (s.preceded i).flush = s.flush.preceded i.flush := by
  simp [flush, preceded]

/-- A macro without its column is called in the same way. -/
theorem call_flush (isolating : Bool) (t : Token) :
    call isolating t.flush = (call isolating t).flush := by
  unfold call
  rw [Token.value_flush]
  split <;> first | rfl | (split <;> rfl)

/-- A command without its column does the same. -/
theorem command_flush (t : Token) : command t.flush = (command t).flush := by
  unfold command
  rw [Token.value_flush]
  split <;> rfl

/-- A token without its column is taken in the same way in the middle of a text. -/
theorem word_flush (isolating : Bool) (t : Token) :
    word isolating t.flush = (word isolating t).flush := by
  unfold word
  rw [Token.kind_flush]
  split <;> first | rfl | exact call_flush isolating t

/-- A token without its column begins a unit in the same way. -/
theorem unit_flush (isolating : Bool) (t : Token) :
    unit isolating t.flush = (unit isolating t).flush := by
  rw [unit, word_flush, unit, preceded_flush, above_flush]
  rfl

/-- A token without its column is taken in the same way on a line of text. -/
theorem line_flush (isolating : Bool) (t : Token) :
    line isolating t.flush = (line isolating t).flush := by
  rw [line, line, above_flush, run, run, Token.kind_flush]
  split
  · rw [word_flush]
    rfl
  · rw [unit_flush]
    rfl

/-- A token without its column begins an argument in the same way. -/
theorem argument_flush (isolating : Bool) (t : Token) :
    argument isolating t.flush = (argument isolating t).flush := by
  unfold argument
  rw [Token.kind_flush]
  split
  · rfl
  · exact unit_flush isolating t

/-- A token without its column is taken in the same way among arguments. The space between arguments
names no token. -/
theorem arguments_flush (isolating first : Bool) (t : Token) :
    arguments isolating first t.flush = (arguments isolating first t).flush := by
  unfold arguments
  rw [argument_flush]
  split
  · rw [above_flush]
    rfl
  · rw [preceded_flush, above_flush]
    rfl

/-- A token without its column begins an argument in a font in the same way. -/
theorem inFont_flush (isolating : Bool) (font other : Font) (t : Token) :
    inFont isolating font other t.flush = (inFont isolating font other t).flush := by
  rw [inFont, inFont, argument_flush, preceded_flush, above_flush, above_flush]
  rfl

/-- A token without its column is taken in the same way where nothing is open. -/
theorem top_flush (isolating : Bool) (t : Token) :
    top isolating t.flush = (top isolating t).flush := by
  unfold top
  rw [Token.kind_flush, Token.startsLine_flush]
  cases t.kind <;> cases t.startsLine <;>
    simp only [call_flush, line_flush, Bool.false_eq_true, if_false, if_true, preceded_flush] <;>
    rfl

end Step

/-! ## Frames -/

/-- A frame does with a token without its column what it does with the token.

**Proof sketch.** By cases on the frame. The reaction asks for the kind of the token, its value and
whether it starts a line, which are the same without the column; the step that it then takes has an
equation of its own. -/
theorem Frame.react_flush (isolating : Bool) (f : Frame) (t : Token) :
    f.flush.react isolating t.flush = (f.react isolating t).flush := by
  cases f <;> dsimp only [flush, react, Token.kind_flush, Token.startsLine_flush, Token.value_flush]
  case tag =>
    rw [Step.call_flush, Step.line_flush]
    split <;> rfl
  case escapeArgument u =>
    simp only [ArgumentUse.settle_flush, Reaction.flush_ite]
    split
    · rfl
    · split <;> rfl
  case alternating first next other =>
    simp only [Reaction.flush_ite, Reaction.flush_take, Reaction.flush_pass, Step.flush_mk,
      Step.inFont_flush]
    rfl
  case arguments first =>
    simp only [Reaction.flush_ite, Reaction.flush_take, Reaction.flush_pass, Step.flush_mk,
      Step.arguments_flush]
    rfl
  all_goals
    simp only [Reaction.flush_ite, Reaction.flush_take, Reaction.flush_pass, Step.flush_mk,
      Step.above_flush, Step.line_flush, Step.word_flush, Step.arguments_flush, Step.argument_flush,
      Step.command_flush, Purpose.settle_flush, ArgumentUse.settle_flush, characterNamed_flush,
      List.map_append, List.map_cons, List.map_nil, flush, Instr.flush]
  case openedArgument _ bracketed | characterName _ bracketed => cases bracketed <;> rfl
  case fontEnd => by_cases ht : t.startsLine = true <;> simp [ht, Instr.flush]
  all_goals rfl

/-- The end of a line brings the same from a frame without columns. -/
theorem Frame.atEnd_flush (f : Frame) : f.flush.atEnd = f.atEnd.map Instr.flush := by
  cases f with
  | argument | bareArgument | quotedArgument => simp [flush, atEnd, Purpose.settle_flush]
  | escapeArgument u => simp [flush, atEnd, ArgumentUse.settle_flush]
  | _ => rfl

/-! ## Stacks -/

/-- **A token without its column** is read as the token, up to columns. By induction on the stack:
each frame reacts in the same way, and what it lets go goes to the frame below. -/
theorem feed_flush (isolating : Bool) (stack : List Frame) (t : Token) :
    feed isolating (stack.map Frame.flush) t.flush = (feed isolating stack t).flush := by
  induction stack with
  | nil => exact Step.top_flush isolating t
  | cons f below ih =>
    rw [List.map_cons, feed, Frame.react_flush, feed]
    cases f.react isolating t with
    | take s => simp [Reaction.flush, Step.flush]
    | pass out =>
      simp only [Reaction.flush, ih]
      simp [Step.flush]

/-- The end of the tokens brings the same from a stack without columns. -/
theorem finish_flush (stack : List Frame) :
    finish (stack.map Frame.flush) = (finish stack).map Instr.flush := by
  rw [finish, finish, List.flatMap_map, List.map_flatMap]
  exact List.flatMap_congr fun f _ => Frame.atEnd_flush f

/-- Tokens that differ in their columns alone are read alike, up to columns. -/
theorem feed_congr (hstack : stack.map Frame.flush = stack'.map Frame.flush)
    (ht : t.flush = u.flush) (isolating : Bool) :
    (feed isolating stack t).flush = (feed isolating stack' u).flush := by
  rw [← feed_flush, ← feed_flush, hstack, ht]

end Manpage
