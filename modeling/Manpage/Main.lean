import Manpage.Command.Run

/-!
# The command

The outer layer of the command: it reads the files and the standard input that a run asks for, has
the run carried out, and writes what the run reports.
-/

namespace Manpage.Command

/-- Why a file could not be read or written. -/
def fileErrorOf : IO.Error → FileError
  | .permissionDenied .. => .denied
  | .inappropriateType .. => .isDirectory
  | .invalidArgument .. => .nameTooLong
  | _ => .absent

/-- A file read from the disk. -/
def readFile (p : Path) : IO (Except FileError (List UInt8)) := do
  try
    let bytes ← IO.FS.readBinFile (String.ofList p.text)
    return .ok bytes.toList
  catch e => return .error (fileErrorOf e)

/-- The files that a request reads. -/
def filesOf (r : Request) : List Path :=
  r.configPath :: r.inputPath.toList

/-- What a run for a command line finds around it. -/
def environment (args : List Text) : IO Environment := do
  let columns ← IO.getEnv "COLUMNS"
  match Request.parse args with
  | .error _ => return ⟨columns.map String.toList, [], fun _ => .error .absent⟩
  | .ok r =>
    let known ← (filesOf r).mapM fun p => do return (p, ← readFile p)
    let stdin ←
      match r.inputPath with
      | none => (← IO.getStdin).readToEnd
      | some _ => pure ""
    let read := fun p => (known.lookup p).getD (.error .absent)
    return ⟨columns.map String.toList, stdin.toList, read⟩

/-- A report written; gives the exit code. -/
def writeReport (r : Report) : IO UInt32 := do
  IO.eprint (String.ofList r.stderr)
  IO.print (String.ofList r.stdout)
  match r.output with
  | none => return r.exitCode.toUInt32
  | some (p, text) =>
    try
      IO.FS.writeFile (String.ofList p.text) (String.ofList text)
      return r.exitCode.toUInt32
    catch e =>
      IO.eprint (String.ofList (errorLine ((fileErrorOf e).message p.text)))
      return 1

/-- The end of a run made known; gives the exit code. -/
def conclude : Ending → IO UInt32
  | .stopped .help => do
    IO.print (String.ofList helpText)
    return 0
  | .stopped s => do
    IO.eprint (String.ofList (usageText ++ s.message ++ ['\n']))
    return s.exitCode.toUInt32
  -- the reader of the format gives no reasons here, so that all malformed files are called so
  | .refused r => writeReport (refusalReport r "malformed configuration file")
  | .aborted a => do
    IO.eprint (String.ofList (errorLine a.message))
    return 1
  | .done r => writeReport r

end Manpage.Command

/-- The command. -/
def main (args : List String) : IO UInt32 := do
  let words := args.map String.toList
  let env ← Manpage.Command.environment words
  Manpage.Command.conclude (Manpage.Command.run words env)
