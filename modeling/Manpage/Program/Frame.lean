import Manpage.Escape
import Manpage.Macro
import Manpage.Number.Numeral
import Manpage.Program.Instr

/-!
# Reading tokens

Tokens are read one at a time. What has been begun and is not yet complete is kept on a stack of
frames, the innermost first. A token goes to the innermost frame, which either takes it, and may
put other frames in its place, or is complete and passes it on to the frame below. A token that
arrives at the empty stack begins something new.

A frame for anything that lies within one line is complete at the first token of the next line.

## Main definitions

* `Manpage.Purpose` — what the first argument of a macro is good for, with
  `Manpage.Purpose.settle`, the instructions for it.
* `Manpage.ArgumentUse` — what the argument of an escape is good for.
* `Manpage.Frame` — what can be incomplete.
* `Manpage.Step` — instructions, and the frames that they leave.
* `Manpage.Step.word`, `Manpage.Step.call`, `Manpage.Step.top` — how a token is taken in a word, as
  a macro, and at the empty stack.
* `Manpage.Frame.react`, `Manpage.Frame.atEnd` — what a frame does with a token and at the end.
-/

namespace Manpage

/-! ## Arguments of macros -/

/-- What the argument of a macro is good for. -/
inductive Purpose where
  /-- the number of empty lines -/
  | skip
  /-- the indent of a tagged paragraph -/
  | tag
  /-- the indent of a marked paragraph -/
  | mark
  /-- the indent -/
  | indent
  /-- the amount of a margin scope -/
  | openMargin
  /-- the number of margin scopes to close -/
  | closeMargin
  /-- the title of a section -/
  | title
deriving DecidableEq

/-- The number of empty lines where none is given. -/
def defaultSkip : Nat :=
  2

/-- The number that an argument denotes, if any, with the instructions for an argument that denotes
none. -/
def readNumber (t : Token) (argument : Text) : List Instr × Option Int :=
  match Numeral.ofText? argument with
  | none => ([.warn (.notANumber argument) t], none)
  | some x =>
    match x.toInt? with
    | none => ([.fault .numberOverflow], none)
    | some n => ([], some n)

/-- The amount that an argument denotes, a negative one counted as nothing. -/
def readAmount (t : Token) : Option Text → List Instr × Option Nat
  | none => ([], none)
  | some argument =>
    let (out, n) := readNumber t argument
    (out, n.map Int.toNat)

/-- The number of lines that an argument denotes; a number that is not positive counts as none
given. -/
def readSkip (t : Token) : Option Text → List Instr × Nat
  | none => ([], defaultSkip)
  | some argument =>
    let (out, n) := readNumber t argument
    match n with
    | none => (out, defaultSkip)
    | some n =>
      if 0 < n then (out, n.toNat) else (out ++ [.warn (.nonPositiveSkip n) t], defaultSkip)

/-- The instructions for the argument of a macro, those at once and those at the end of the
line. -/
def Purpose.settle (p : Purpose) (t : Token) (argument : Option Text) :
    List Instr × List Instr :=
  match p with
  | .skip =>
    let (out, n) := readSkip t argument
    (out, [.skipLines n])
  | .tag =>
    let (out, n) := readAmount t argument
    (out, [.openTag (n.map Int.ofNat)])
  | .mark =>
    let (out, n) := readAmount t argument
    (out, [.paragraphIndent (n.map Int.ofNat), .lineBreak])
  | .indent =>
    let (out, n) := readAmount t argument
    (out, [.setIndent (Int.ofNat (n.getD 0))])
  | .openMargin =>
    let (out, n) := readAmount t argument
    (out, [.openMargin (n.map Int.ofNat), .setIndent 0, .lineBreak])
  | .closeMargin =>
    let (out, n) := readAmount t argument
    (out, [.closeMargins (n.getD 1) t, .setIndent 0, .forgetIndent])
  | .title => ([.enterSection (Section.ofTitle (argument.getD []))], [])

/-! ## Arguments of escapes -/

/-- What the argument of an escape is good for. -/
inductive ArgumentUse where
  | font (command : Token)
  | ignored
  | string (command : Token)
deriving DecidableEq

/-- The instructions for the argument of an escape, which may be missing. -/
def ArgumentUse.settle (u : ArgumentUse) (argument : Option Text) : List Instr :=
  match u, argument with
  | .ignored, _ => []
  | .string command, name => [.warn (.unsupportedString (name.getD [])) command]
  | .font _, none => []
  | .font command, some name =>
    match FontName.ofName? name with
    | some .bold => [.setStyle .bold true]
    | some .italic => [.setStyle .italic true]
    | some .roman => [.plainStyle]
    | some .previous => [.plainStyle]
    | none => [.warn (.unsupportedFont name) command]

/-- The instructions for a character given by its name. -/
def characterNamed (command : Token) (name : Text) : List Instr :=
  match specialCharacter? name with
  | some text => [.emit text]
  | none => [.warn (.unknownCharacter name) command]

/-! ## Frames -/

/-- What can be incomplete between two tokens. -/
inductive Frame where
  /-- a line of text -/
  | line
  /-- a unit that is kept together -/
  | unit
  /-- the arguments of a macro that are shown, with a mark as long as there was none -/
  | arguments (first : Bool)
  /-- a quoted argument that is shown -/
  | quoted
  /-- the arguments of a macro that are shown, or the next line where there are none -/
  | argumentsOrLine
  /-- arguments in two fonts by turns, the font of the next one first, with a mark up to the
  first -/
  | alternating (first : Bool) (next other : Font)
  /-- the marker of a paragraph -/
  | marker
  /-- the line after a tagged paragraph was begun -/
  | tag
  /-- the rest of a line, which is not shown, and the instructions after it -/
  | restOfLine (out : List Instr)
  /-- the instructions after what lies above -/
  | afterwards (out : List Instr)
  /-- an argument of a macro, not yet begun -/
  | argument (p : Purpose) (t : Token)
  /-- an argument of a macro without quotes, read so far -/
  | bareArgument (p : Purpose) (t : Token) (text : Text)
  /-- an argument of a macro between quotes, read so far -/
  | quotedArgument (p : Purpose) (t : Token) (text : Text)
  /-- a line that is the title of a section, read so far -/
  | titleLine (text : Text)
  /-- an escape, its command not yet read -/
  | escape
  /-- the argument of an escape, not yet begun -/
  | escapeArgument (u : ArgumentUse)
  /-- the argument of an escape after its opening parenthesis or bracket -/
  | openedArgument (u : ArgumentUse) (bracketed : Bool)
  /-- the name of a character -/
  | characterName (command : Token) (bracketed : Bool)
  /-- the bracket that may close an argument -/
  | closingBracket
  /-- the end of a font escape -/
  | fontEnd
deriving DecidableEq

/-- Instructions, and the frames that they leave, the innermost first. -/
structure Step where
  out : List Instr
  frames : List Frame
deriving DecidableEq

namespace Step

/-- The same step with a frame below all others. -/
def above (s : Step) (below : Frame) : Step :=
  ⟨s.out, s.frames ++ [below]⟩

/-- The same step with an instruction before all others. -/
def preceded (i : Instr) (s : Step) : Step :=
  ⟨i :: s.out, s.frames⟩

/-! ## Taking a token -/

/-- The call of a macro. Where one section is asked for, headings are not shown but only tracked.
A macro without effect leaves its arguments to be read as text. -/
def call (isolating : Bool) (t : Token) : Step :=
  match Macro.ofName? t.value with
  | some .title => ⟨[.consume t], [.restOfLine []]⟩
  | some .heading =>
    if isolating then ⟨[.consume t], [.argument .title t]⟩
    else
      ⟨[.consume t, .clearMargins, .setIndent 0, .blankLine, .openStyle .bold],
        [.argumentsOrLine, .afterwards [.closeScope, .sectionMargin, .setIndent 0, .lineBreak]]⟩
  | some .subheading =>
    ⟨[.consume t, .blankLine, .openStyle .bold],
      [.argumentsOrLine, .afterwards [.closeScope, .lineBreak]]⟩
  | some .skip => ⟨[.consume t], [.argument .skip t]⟩
  | some .lineBreak => ⟨[.consume t], [.restOfLine [.lineBreak]]⟩
  | some .noFill => ⟨[.consume t], [.restOfLine [.lineBreak, .setNoFill true]]⟩
  | some .fill => ⟨[.consume t], [.restOfLine [.setNoFill false]]⟩
  | some .tagged => ⟨[.consume t], [.argument .tag t, .tag, .afterwards [.closeScope]]⟩
  | some .marked =>
    ⟨[.consume t, .setIndent 0, .blankLine], [.marker, .argument .mark t]⟩
  | some .indent => ⟨[.consume t], [.argument .indent t]⟩
  | some .paragraph => ⟨[.consume t], [.restOfLine [.setIndent 0, .plainStyle, .blankLine]]⟩
  | some (.inFont font) =>
    ⟨[.consume t, .setStyle font true],
      [.argumentsOrLine, .afterwards [.setStyle font false, .space]]⟩
  | some (.alternating odd even) => ⟨[.consume t], [.alternating true odd even]⟩
  | some .openMargin => ⟨[.consume t], [.argument .openMargin t]⟩
  | some .closeMargin => ⟨[.consume t], [.argument .closeMargin t]⟩
  | some .condition => ⟨[.consume t], [.restOfLine []]⟩
  | none => ⟨[.consume t, .note t, .warn (.unknownMacro t.value) t], []⟩

/-- The command of an escape. -/
def command (t : Token) : Step :=
  match Escape.ofCommand t.value with
  | .font => ⟨[.consume t], [.escapeArgument (.font t), .fontEnd]⟩
  | .ignored => ⟨[.consume t], [.escapeArgument .ignored]⟩
  | .string => ⟨[.consume t], [.escapeArgument (.string t)]⟩
  | .special bracketed => ⟨[.consume t], [.characterName t bracketed]⟩
  | .literal text => ⟨[.consume t, .emit text], []⟩
  | .comment => ⟨[.consume t], [.restOfLine []]⟩
  | .unsupported => ⟨[.consume t, .warn (.unsupportedEscape t.value) t], []⟩

/-- A token of a word. A part of an escape is none. -/
def word (isolating : Bool) (t : Token) : Step :=
  match t.kind with
  | .macroName => call isolating t
  | .emptyLine => ⟨[.consume t, .emptyLine], []⟩
  | .backslash => ⟨[.consume t], [.escape]⟩
  | .blank => ⟨[.consume t, .blank t.value], []⟩
  | .word | .quote | .command => ⟨[.consume t, .emit t.value], []⟩
  | .argument | .openBracket | .closeBracket | .openParen =>
    ⟨[.fault (.strayPart t), .consume t], []⟩

/-- The first token of a unit that is kept together. -/
def unit (isolating : Bool) (t : Token) : Step :=
  ((word isolating t).above .unit).preceded .openWord

/-- A token that begins a blank or a unit on a line of text. -/
def run (isolating : Bool) (t : Token) : Step :=
  if t.kind = .blank then word isolating t else unit isolating t

/-- The first token of a line of text. -/
def line (isolating : Bool) (t : Token) : Step :=
  (run isolating t).above .line

/-- The first token of an argument that is shown. -/
def argument (isolating : Bool) (t : Token) : Step :=
  if t.kind = .quote then ⟨[.consume t], [.quoted]⟩ else unit isolating t

/-- The first token of an argument that is shown and that others follow. -/
def arguments (isolating first : Bool) (t : Token) : Step :=
  let s := (argument isolating t).above (.arguments false)
  if first then s else s.preceded .space

/-- The first token of an argument in a font of its own. -/
def inFont (isolating : Bool) (font other : Font) (t : Token) : Step :=
  (((argument isolating t).above (.afterwards [.closeScope])).above
    (.alternating false other font)).preceded (.openStyle font)

/-- A token at the empty stack. -/
def top (isolating : Bool) (t : Token) : Step :=
  let s :=
    match t.kind with
    | .macroName => call isolating t
    | .emptyLine => ⟨[.consume t, .emptyLine], []⟩
    | _ => line isolating t
  if t.startsLine then s.preceded .beginLine else s

end Step

/-! ## Reactions -/

/-- What a frame does with a token. -/
inductive Reaction where
  /-- takes the token; the frames of the step are left in its place -/
  | take (s : Step)
  /-- is complete, after some instructions, and passes the token on -/
  | pass (out : List Instr)
deriving DecidableEq

namespace Frame

open Reaction

/-- What a frame does with a token. -/
def react (isolating : Bool) (f : Frame) (t : Token) : Reaction :=
  match f with
  | .line =>
    if t.startsLine then pass [.endLine] else take (Step.line isolating t)
  | .unit =>
    if t.startsLine || t.kind = .blank then pass [.closeScope]
    else take ((Step.word isolating t).above .unit)
  | .arguments first =>
    if t.startsLine then pass []
    else if t.kind = .blank then take ⟨[.consume t], [.arguments first]⟩
    else take (Step.arguments isolating first t)
  | .quoted =>
    if t.startsLine then pass []
    else if t.kind = .quote then take ⟨[.consume t], []⟩
    else take ((Step.word isolating t).above .quoted)
  | .argumentsOrLine =>
    if t.startsLine then
      if t.kind = .macroName || t.kind = .emptyLine then pass [] else take (Step.line isolating t)
    else if t.kind = .blank then take ⟨[.consume t], [.argumentsOrLine]⟩
    else take (Step.arguments isolating true t)
  | .alternating first next other =>
    if t.startsLine then pass [.space]
    else if t.kind = .blank then
      if first then take ⟨[.consume t], [.alternating true next other]⟩
      else take ⟨[.consume t, .blank t.value], [.alternating false next other]⟩
    else take (Step.inFont isolating next other t)
  | .marker =>
    if t.startsLine then pass []
    else if t.kind = .blank then take ⟨[.consume t], [.marker]⟩
    else take ((Step.argument isolating t).above (.afterwards [.space]))
  | .tag =>
    match t.kind with
    | .emptyLine => pass []
    | .macroName => take (Step.call isolating t)
    | _ => take (Step.line isolating t)
  | .restOfLine out =>
    if t.startsLine then pass out else take ⟨[.consume t], [.restOfLine out]⟩
  | .afterwards out => pass out
  | .argument p caller =>
    if t.startsLine then
      if p = .title && !(t.kind = .macroName || t.kind = .emptyLine) then
        take ⟨[.consume t], [.titleLine t.value]⟩
      else
        let (out, after) := p.settle caller none
        pass (out ++ after)
    else if t.kind = .blank then take ⟨[.consume t], [.argument p caller]⟩
    else if t.kind = .quote then take ⟨[.consume t], [.quotedArgument p caller []]⟩
    else take ⟨[.consume t], [.bareArgument p caller t.value]⟩
  | .bareArgument p caller text =>
    let (out, after) := p.settle caller (some text)
    if t.startsLine then pass (out ++ after)
    else if t.kind = .blank then take ⟨out ++ [.consume t], [.restOfLine after]⟩
    else take ⟨[.consume t], [.bareArgument p caller (text ++ t.value)]⟩
  | .quotedArgument p caller text =>
    let (out, after) := p.settle caller (some text)
    if t.startsLine then pass (out ++ after)
    else if t.kind = .quote then take ⟨.consume t :: out, [.restOfLine after]⟩
    else take ⟨[.consume t], [.quotedArgument p caller (text ++ t.value)]⟩
  | .titleLine text =>
    if t.startsLine then pass [.enterSection (Section.ofTitle text.strip)]
    else take ⟨[.consume t], [.titleLine (text ++ t.value)]⟩
  | .escape =>
    if t.startsLine || t.kind ≠ .command then pass [] else take (Step.command t)
  | .escapeArgument u =>
    if t.startsLine then pass (u.settle none)
    else
      match t.kind with
      | .openParen => take ⟨[.consume t], [.openedArgument u false]⟩
      | .openBracket => take ⟨[.consume t], [.openedArgument u true]⟩
      | .argument => take ⟨.consume t :: u.settle (some t.value), []⟩
      | _ => pass (u.settle none)
  | .openedArgument u bracketed =>
    if t.kind = .argument then
      take ⟨.consume t :: u.settle (some t.value), if bracketed then [.closingBracket] else []⟩
    else pass [.fault (.missingArgument (some t))]
  | .characterName command bracketed =>
    if t.startsLine || t.kind ≠ .argument then pass []
    else
      take ⟨.consume t :: characterNamed command t.value,
        if bracketed then [.closingBracket] else []⟩
  | .closingBracket =>
    if t.kind = .closeBracket then take ⟨[.consume t], []⟩ else pass []
  | .fontEnd => pass (if t.startsLine then [.space] else [])

/-- What a frame does at the end of all tokens. -/
def atEnd (f : Frame) : List Instr :=
  match f with
  | .line => [.endLine]
  | .unit => [.closeScope]
  | .arguments _ => []
  | .quoted => []
  | .argumentsOrLine => []
  | .alternating _ _ _ => [.space]
  | .marker => []
  | .tag => []
  | .restOfLine out => out
  | .afterwards out => out
  | .argument p caller =>
    let (out, after) := p.settle caller none
    out ++ after
  | .bareArgument p caller text =>
    let (out, after) := p.settle caller (some text)
    out ++ after
  | .quotedArgument p caller text =>
    let (out, after) := p.settle caller (some text)
    out ++ after
  | .titleLine text => [.enterSection (Section.ofTitle text.strip)]
  | .escape => []
  | .escapeArgument u => u.settle none
  | .openedArgument _ _ => [.fault (.missingArgument none)]
  | .characterName _ _ => []
  | .closingBracket => []
  | .fontEnd => [.space]

end Frame

end Manpage
