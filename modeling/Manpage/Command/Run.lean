import Manpage.Command.Options
import Manpage.Page.Width
import Manpage.Render

/-!
# Runs of the command

A run reads a source, renders it, and writes the text. It fails with the exit code 2 where the
configuration is wrong, and with the exit code 1 where the source cannot be read or interpreted; a
run that fails writes nothing but messages. Some causes abort a run without a report: a
configuration that is no text or too large, paths that cannot be names of files, numbers that are
too large, and a section or a width that is given as nothing.

## Main definitions

* `Manpage.Environment` — what a run finds around it.
* `Manpage.Report` — what a run writes, and its exit code.
* `Manpage.Ending` — how a run ends.
* `Manpage.Command.run` — a run for a command line.
-/

namespace Manpage

/-- What a run finds around it: the setting for the number of columns, the standard input, and the
files. There is no terminal on the standard output, whose size would count where the setting gives
no positive number. -/
structure Environment where
  columns : Option Text
  stdin : Text
  read : Path → Except FileError (List UInt8)

/-- What a run writes, and its exit code. The output is a file with its text. -/
structure Report where
  exitCode : Nat
  stdout : Text
  stderr : Text
  output : Option (Path × Text)
deriving DecidableEq

/-- What aborts a run without a report. -/
inductive Abort where
  /-- the configuration cannot be taken in -/
  | config (r : Config.Refusal)
  /-- a path leads nowhere -/
  | file (e : FileError) (p : Path)
  /-- the section is given as nothing -/
  | missingSection
  /-- the number of columns is given as nothing -/
  | missingColumns
  /-- a numeric argument is too large -/
  | overflow

/-- How a run ends. -/
inductive Ending where
  /-- the command line is not carried out -/
  | stopped (s : Stop)
  /-- the configuration is refused -/
  | refused (r : Config.Refusal)
  | aborted (a : Abort)
  | done (r : Report)

/-- What is said of an abort. -/
def Abort.message : Abort → Text
  | config r => r.message
  | file e p => e.message p.text
  | missingSection => "'list' object has no attribute 'strip'"
  | missingColumns => "'>' not supported between instances of 'int' and 'list'"
  | overflow => Fault.numberOverflow.message

namespace Command

/-- What is shown of an error. -/
def errorLine (message : Text) : Text :=
  "error: ".toList ++ message ++ ['\n']

/-- The line of the debug log for a warning. -/
def logLine (w : Warning) : Text :=
  "DEBUG termroff.interpreter: line ".toList ++ Text.ofInt w.line ++ [':', ' '] ++ w.message
    ++ ['\n']

/-- What the debug log shows of a source: its tokens, and then the warnings. -/
def debugText (source : Text) (m : Machine) : Text :=
  Token.dump (Token.ofSource source) ++ m.warnings.flatMap logLine

/-- The source of a run, if it can be read. The line ends of a file are made line feeds, those of
the standard input stay as they are. -/
def sourceOf (o : Options) (env : Environment) : Except (FileError × Path) Text :=
  match o.input with
  | none => .ok env.stdin
  | some p =>
    match env.read p with
    | .error e => .error (e, p)
    | .ok bytes => .ok (Text.withLineFeeds (Utf8.decodeLossy bytes))

/-- The name of the source in messages. -/
def sourceName (o : Options) : Text :=
  match o.input with
  | none => "<stdin>"
  | some p => p.text

/-- The section that a run is to show, if one is asked for. -/
def sectionOf (o : Options) : Except Abort (Option Section) :=
  match o.requested with
  | none => .ok none
  | some (.value name) => .ok (some (Section.ofRequest name))
  | some .nothing => .error .missingSection

/-- The line width of a run. -/
def widthOf (o : Options) (env : Environment) : Except Abort Int :=
  match o.columns with
  | none => .ok (terminalLineWidth env.columns)
  | some (.value n) => .ok (lineWidth n)
  | some .nothing => .error .missingColumns

/-- A text written where the options say. -/
def written (o : Options) (stderr text : Text) : Report :=
  match o.output with
  | some p => ⟨0, [], stderr, some (p, text)⟩
  | none => ⟨0, text, stderr, none⟩

/-- A run with given options on a source, for a section and a line width. The log and the trace go
to the standard error, before any message. -/
def renderRun (o : Options) (source : Text) (requested : Option Section) (width : Int) : Ending :=
  let outcome := interpretSource source requested width
  let m := outcome.machine
  let log := if o.debug then debugText source m else []
  match outcome.fault with
  | some .numberOverflow => .aborted .overflow
  | some f => .done ⟨1, [], log ++ f.report source (sourceName o) ++ ['\n'], none⟩
  | none =>
    let trace := if o.trace then m.trace ++ ['\n'] else []
    .done (written o (log ++ trace) (m.page.text ++ ['\n']))

/-- The end of a run whose source cannot be read. -/
def unreadSource (e : FileError) (p : Path) : Ending :=
  match e with
  | .nullCharacter => .aborted (.file e p)
  | _ => .done ⟨1, [], errorLine (e.message p.text), none⟩

/-- A run with given options. It reads the source first. -/
def execute (o : Options) (env : Environment) : Ending :=
  match sourceOf o env with
  | .error (e, p) => unreadSource e p
  | .ok source =>
    match sectionOf o, widthOf o env with
    | .error a, _ => .aborted a
    | .ok _, .error a => .aborted a
    | .ok requested, .ok width => renderRun o source requested width

/-- The report on a configuration that is refused, with what the reader of the format says of a
malformed one. -/
def refusalReport (r : Config.Refusal) (ofReader : Text := []) : Report :=
  ⟨2, [], errorLine (r.message ofReader), none⟩

/-- A run for a command line. It checks the command line first, then the configuration. -/
def run (args : List Text) (env : Environment) (limits : Config.Limits := .usual) : Ending :=
  match Request.parse args with
  | .error s => .stopped s
  | .ok r =>
    match Options.resolve r env.read limits with
    | .error (.refused r) => if r.isReported then .refused r else .aborted (.config r)
    | .error (.unreadable e p) => .aborted (.file e p)
    | .ok o => execute o env

end Command

end Manpage
