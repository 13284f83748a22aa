import Manpage.Text.Integer
import Manpage.Text.Quoted

/-!
# Command lines

The words of a command line are flags, with or without a value, and one other word, the input. A
flag has a long name, of which any unambiguous beginning will do, and most have a short name too. A
value follows its flag as the next word, after an equals sign, or right behind a short name. After
two hyphens every word stands for itself; two hyphens in the same word as their flag stand for
nothing.

## Main definitions

* `Manpage.Flag` — the flags.
* `Manpage.Given` — what stands as the value of a flag.
* `Manpage.Request` — what a command line asks for.
* `Manpage.Stop` — why a command line is not carried out, with its message.
* `Manpage.Request.parse` — the request of a command line.
-/

namespace Manpage

/-! ## Flags -/

/-- The flags of the command line. -/
inductive Flag where
  | help
  | output
  | requested
  | width
  | config
  | trace
  | debug
deriving DecidableEq

namespace Flag

/-- Every flag, in the order of the help text. -/
def all : List Flag :=
  [help, output, requested, width, config, trace, debug]

/-- The short name of a flag, without its hyphen. -/
def letter? : Flag → Option Char
  | help => some 'h'
  | output => some 'o'
  | requested => some 's'
  | width => some 'w'
  | config | trace | debug => none

/-- The long name of a flag. -/
def longName : Flag → Text
  | help => "--help"
  | output => "--output"
  | requested => "--section"
  | width => "--width"
  | config => "--config"
  | trace => "--trace"
  | debug => "--debug"

/-- All names of a flag, as messages refer to it. -/
def title (f : Flag) : Text :=
  match f.letter? with
  | some c => ['-', c, '/'] ++ f.longName
  | none => f.longName

/-- A flag that has a value. -/
def takesValue : Flag → Bool
  | output | requested | width | config => true
  | help | trace | debug => false

/-- The flag of a short name. -/
def ofLetter? (c : Char) : Option Flag :=
  all.find? fun f => f.letter? == some c

/-- The flag of a whole name, short or long. -/
def ofName? (t : Text) : Option Flag :=
  all.find? fun f => f.longName == t || (f.letter?.map fun c => ['-', c]) == some t

/-- The flags whose long names begin with a text. -/
def beginningWith (t : Text) : List Flag :=
  all.filter fun f => t.isPrefixOf f.longName

end Flag

/-! ## Stops -/

/-- Why a command line is not carried out. -/
inductive Stop where
  /-- the help text is asked for -/
  | help
  | ambiguous (word : Text) (candidates : List Flag)
  | missingValue (flag : Flag)
  | needlessValue (flag : Flag) (given : Text)
  | invalidNumber (flag : Flag) (given : Text)
  | missingInput
  | unrecognized (words : List Text)
deriving DecidableEq

namespace Stop

/-- What is wrong with a command line. -/
def reason : Stop → Text
  | help => []
  | ambiguous word candidates =>
    "ambiguous option: ".toList ++ word ++ " could match ".toList
      ++ Text.join [',', ' '] (candidates.map Flag.longName)
  | missingValue flag => "argument ".toList ++ flag.title ++ ": expected one argument".toList
  | needlessValue flag given =>
    "argument ".toList ++ flag.title ++ ": ignored explicit argument ".toList ++ given.quoted
  | invalidNumber flag given =>
    "argument ".toList ++ flag.title ++ ": invalid int value: ".toList ++ given.quoted
  | missingInput => "the following arguments are required: input"
  | unrecognized words => "unrecognized arguments: ".toList ++ Text.join [' '] words

/-- The message about a command line that is wrong. -/
def message (s : Stop) : Text :=
  "termroff: error: ".toList ++ s.reason

/-- The exit code: asking for help is no mistake. -/
def exitCode : Stop → Nat
  | help => 0
  | _ => 2

end Stop

/-- The usage of the command. -/
def usageText : Text :=
  "usage: termroff [-h] [-o OUTPUT] [-s NAME] [-w COLUMNS] [--config FILE]
                [--trace] [--debug]
                input
"

/-- The help text. -/
def helpText : Text :=
  usageText ++ "
Render man-page markup as terminal text

positional arguments:
  input                 Input man-page source ('-' for stdin)

options:
  -h, --help            show this help message and exit
  -o OUTPUT, --output OUTPUT
                        Output file (default: stdout)
  -s NAME, --section NAME
                        Only render one section: name, synopsis, description
                        or options
  -w COLUMNS, --width COLUMNS
                        Terminal width in columns (default: detected)
  --config FILE         Config file (default: auto-discover termroff.toml)
  --trace               Print the consumed-token trace to stderr
  --debug               Dump tokens and debug logs to stderr
".toList

/-! ## Words -/

/-- A flag as it is written in one word: by its long name or not, and with what follows in the same
word, behind an equals sign or not, if anything does. -/
structure Spelling where
  flag : Flag
  long : Bool
  attached : Option Text
deriving DecidableEq

/-- What a word of a command line is by itself. -/
inductive Word where
  | plain
  /-- the two hyphens after which all words are plain -/
  | divider
  | flag (s : Spelling)
  | unknown
deriving DecidableEq

namespace Word

/-- A negative number, whole or with a fraction; a line feed at the end is let pass. -/
def isNegativeNumber (t : Text) : Bool :=
  match t with
  | '-' :: t =>
    let t := if t.getLast? == some '\n' then t.dropLast else t
    match t.dropWhile Text.isDigit with
    | [] => !t.isEmpty
    | '.' :: fraction => !fraction.isEmpty && fraction.all Text.isDigit
    | _ => false
  | _ => false

/-- The text before the first equals sign, and what follows the sign, if there is one. -/
def splitEquals (t : Text) : Text × Option Text :=
  match t.dropWhile (· != '=') with
  | [] => (t, none)
  | _ :: rest => (t.takeWhile (· != '='), some rest)

/-- A word that names no flag: plain if it looks like a negative number or holds a space. -/
def unnamed (t : Text) : Word :=
  if isNegativeNumber t || t.contains ' ' then plain else unknown

/-- What a word is, of those before two hyphens. -/
def classify (t : Text) : Except Stop Word :=
  match t with
  | '-' :: c :: rest =>
    let (name, value) := splitEquals t
    match Flag.ofName? t with
    | some f => .ok (flag ⟨f, c == '-', none⟩)
    | none =>
      match value, Flag.ofName? name with
      | some v, some f => .ok (flag ⟨f, c == '-', some v⟩)
      | _, _ =>
        if c == '-' then
          match Flag.beginningWith name with
          | [] => .ok (unnamed t)
          | [f] => .ok (flag ⟨f, true, value⟩)
          | candidates => .error (.ambiguous t candidates)
        else
          match Flag.ofLetter? c with
          | some f => .ok (flag ⟨f, false, some rest⟩)
          | none => .ok (unnamed t)
  | _ => .ok plain

/-- The words of a command line with what they are. -/
def classifyAll : List Text → Except Stop (List (Text × Word))
  | [] => .ok []
  | t :: more =>
    if t == ['-', '-'] then .ok ((t, divider) :: more.map fun w => (w, plain))
    else do
      let w ← classify t
      return (t, w) :: (← classifyAll more)

end Word

/-! ## Requests -/

/-- What stands as the value of a flag: something, or nothing, where two hyphens take its place. -/
inductive Given (α : Type) where
  | nothing
  | value (a : α)
deriving DecidableEq

/-- What a text stands for as the value of a flag. -/
def Given.ofText (t : Text) : Given Text :=
  if t == ['-', '-'] then nothing else value t

/-- What a command line asks for. -/
structure Request where
  input : Text
  output : Option (Given Text)
  requested : Option (Given Text)
  columns : Option (Given Int)
  config : Option (Given Text)
  trace : Bool
  debug : Bool
deriving DecidableEq

namespace Request

/-- A request while its command line is read: the input if it was seen, a mark right after it, and
the words that nothing is made of. -/
structure Draft where
  request : Request
  seen : Bool
  fresh : Bool
  extras : List Text
deriving DecidableEq

/-- The request of no words. -/
def Draft.empty : Draft :=
  ⟨⟨[], none, none, none, none, false, false⟩, false, false, []⟩

/-- The effect of a flag without a value. -/
def Draft.switch (d : Draft) (f : Flag) : Except Stop Draft :=
  match f with
  | .help => .error .help
  | .trace => .ok { d with request.trace := true }
  | .debug => .ok { d with request.debug := true }
  | .output | .requested | .width | .config => .ok d

/-- The number of columns that a text stands for. -/
def columnsOf (t : Text) : Except Stop (Given Int) :=
  match Given.ofText t with
  | .nothing => .ok .nothing
  | .value t =>
    match Text.toInt? t with
    | some n => .ok (.value n)
    | none => .error (.invalidNumber .width t)

/-- The effect of a flag with a value; the last one counts. -/
def Draft.assign (d : Draft) (f : Flag) (value : Text) : Except Stop Draft :=
  match f with
  | .output => .ok { d with request.output := some (.ofText value) }
  | .requested => .ok { d with request.requested := some (.ofText value) }
  | .config => .ok { d with request.config := some (.ofText value) }
  | .width => (columnsOf value).map fun n => { d with request.columns := some n }
  | .help | .trace | .debug => .ok d

/-- The flags of one word: those without a value in their order, then one that has a value, if
there is one, with the value if it stands in the same word. -/
structure Cluster where
  switches : List Flag
  valued : Option (Flag × Option Text)
deriving DecidableEq

/-- The flags of a word from a short flag on, with what follows it in the same word. A flag without
a value can be followed by the letter of another, and one that has a value takes all that follows.
-/
def clusterFrom (f : Flag) : Text → Except Stop Cluster
  | [] => .ok (if f.takesValue then ⟨[], some (f, none)⟩ else ⟨[f], none⟩)
  | c :: rest =>
    if f.takesValue then .ok ⟨[], some (f, some (c :: rest))⟩
    else
      match Flag.ofLetter? c with
      | none => .error (.needlessValue f (c :: rest))
      | some g =>
        (clusterFrom g rest).map fun following =>
          { following with switches := f :: following.switches }

/-- The flags of a spelled word. -/
def clusterOf (s : Spelling) : Except Stop Cluster :=
  match s.attached with
  | none => clusterFrom s.flag []
  | some t =>
    if s.flag.takesValue then .ok ⟨[], some (s.flag, some t)⟩
    else if s.long || t.isEmpty then .error (.needlessValue s.flag t)
    else clusterFrom s.flag t

/-- The effects of flags without a value, in their order. -/
def switchAll (d : Draft) : List Flag → Except Stop Draft
  | [] => .ok d
  | f :: more => do switchAll (← d.switch f) more

/-- The words of a command line, from a given draft on. The first plain word is the input; two
hyphens are passed over next to it and are left over anywhere else. -/
def readWords (d : Draft) : List (Text × Word) → Except Stop Draft
  | [] => .ok d
  | (t, .plain) :: more =>
    if d.seen then readWords { d with fresh := false, extras := d.extras ++ [t] } more
    else readWords { d with request.input := t, seen := true, fresh := true } more
  | (t, .divider) :: more =>
    if d.fresh || (!d.seen && !more.isEmpty) then readWords { d with fresh := false } more
    else readWords { d with extras := d.extras ++ [t] } more
  | (t, .unknown) :: more => readWords { d with fresh := false, extras := d.extras ++ [t] } more
  | (_, .flag s) :: more => do
    let c ← clusterOf s
    let d := { d with fresh := false }
    match c.valued with
    | none => readWords (← switchAll d c.switches) more
    | some (f, some value) => readWords (← (← switchAll d c.switches).assign f value) more
    | some (f, none) =>
      match more with
      | (value, .plain) :: more => readWords (← (← switchAll d c.switches).assign f value) more
      | _ => .error (.missingValue f)

/-- The request of a command line. -/
def parse (args : List Text) : Except Stop Request := do
  let d ← readWords .empty (← Word.classifyAll args)
  if !d.seen then .error .missingInput
  else if !d.extras.isEmpty then .error (.unrecognized d.extras)
  else return d.request

end Request

end Manpage
