import Manpage.Command.Arguments
import Manpage.Command.Files
import Manpage.Config.Settings

/-!
# Options

What a run is to do: the request of the command line, completed by the settings of a configuration
file. The file is the one that the command line names, or else the one beside the input; a file that
does not exist sets nothing. The command line counts before the file, but the file is checked even
so.

## Main definitions

* `Manpage.Options` — the options of a run.
* `Manpage.Obstacle` — why there are none.
* `Manpage.Request.configPath` — the configuration file of a request.
* `Manpage.Options.resolve` — the options for a request.
* `Manpage.Config.Refusal.message` — what is said of a configuration file that is refused.
-/

namespace Manpage

/-- The options of a run. Without an input file, the standard input is read; without an output file,
the standard output is written. The section and the number of columns may be given as nothing. -/
structure Options where
  input : Option Path
  output : Option Path
  requested : Option (Given Text)
  columns : Option (Given Int)
  trace : Bool
  debug : Bool
deriving DecidableEq

/-- The name of a configuration file that is found by itself. -/
def configName : Text :=
  "termroff.toml"

namespace Request

/-- The input file of a request; a hyphen stands for the standard input. -/
def inputPath (r : Request) : Option Path :=
  if r.input == ['-'] then none else some (Path.ofText r.input)

/-- The path that the value of a flag names, unless it is empty or nothing. -/
def pathOf : Option (Given Text) → Option Path
  | some (.value t) => if t.isEmpty then none else some (Path.ofText t)
  | some .nothing | none => none

/-- The configuration file of a request. -/
def configPath (r : Request) : Path :=
  match pathOf r.config with
  | some p => p
  | none => ((r.inputPath.map Path.parent).getD Path.here).child configName

end Request

namespace Config

/-- What is said of bytes that are no text. -/
def flawMessage (f : Utf8.Flaw) : Text :=
  let place :=
    if f.length == 1 then
      "byte 0x".toList ++ Text.hex 2 f.first.toNat ++ " in position ".toList
        ++ Text.ofNat f.position
    else
      "bytes in position ".toList ++ Text.ofNat f.position ++ ['-']
        ++ Text.ofNat (f.position + f.length - 1)
  let reason : Text :=
    match f.cause with
    | .start => "invalid start byte"
    | .continuation => "invalid continuation byte"
    | .truncated => "unexpected end of data"
  "'utf-8' codec can't decode ".toList ++ place ++ [':', ' '] ++ reason

/-- What is said of a configuration file that is refused. Of a malformed one it is what the reader
of the format says, in words of its own that are handed on as they are. -/
def Refusal.message (r : Refusal) (ofReader : Text := []) : Text :=
  match r with
  | .notText flaw => flawMessage flaw
  | .unreadable .malformed => ofReader
  | .unreadable (.tooManyDigits count) =>
    "Exceeds the limit (".toList ++ Text.ofNat Text.maxDigits
      ++ " digits) for integer string conversion: value has ".toList ++ Text.ofNat count
      ++ " digits; use sys.set_int_max_str_digits() to increase the limit".toList
  | .unreadable .tooDeep => "maximum recursion depth exceeded"
  | .invalid setting v => "invalid config value for ".toList ++ setting ++ [':', ' '] ++ v.shown
  | .unshowable .tooManyDigits =>
    "Exceeds the limit (".toList ++ Text.ofNat Text.maxDigits
      ++ " digits) for integer string conversion; ".toList
      ++ "use sys.set_int_max_str_digits() to increase the limit".toList
  | .unshowable .tooDeep =>
    "maximum recursion depth exceeded while getting the repr of an object"

end Config

/-- Why there are no options for a request. -/
inductive Obstacle where
  /-- the configuration file is refused -/
  | refused (r : Config.Refusal)
  /-- it cannot be told whether there is a configuration file, or it cannot be read -/
  | unreadable (e : FileError) (p : Path)

namespace Options

/-- The options for a request with given settings. -/
def merge (r : Request) (s : Config.Settings) : Options where
  input := r.inputPath
  output := Request.pathOf r.output
  requested := r.requested.orElse fun _ => s.requested.map .value
  columns := r.columns.orElse fun _ => s.columns.map .value
  trace := r.trace
  debug := r.debug

/-- The settings of a configuration file at a path, from what was read there. -/
def settingsOf (limits : Config.Limits) (p : Path) (contents : Except FileError (List UInt8)) :
    Except Obstacle Config.Settings :=
  match contents with
  | .error e => if e.meansNoFile then .ok Config.Settings.empty else .error (.unreadable e p)
  | .ok bytes => (Config.Settings.ofBytes limits bytes).mapError .refused

/-- The options for a request, where files are read by the given function. -/
def resolve (r : Request) (read : Path → Except FileError (List UInt8))
    (limits : Config.Limits := .usual) : Except Obstacle Options := do
  let s ← settingsOf limits r.configPath (read r.configPath)
  return merge r s

end Options

end Manpage
