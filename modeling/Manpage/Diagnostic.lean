import Manpage.Page.Width
import Manpage.Render

/-!
# Diagnostics

What an editor shows about a source: the fault that stops its interpretation, if there is one, and
then every warning. Places are ranges within one line, lines and columns counted from zero.

## Main definitions

* `Manpage.Diagnostic` — a message with a severity and a range.
* `Manpage.diagnose` — the diagnostics of a source.
-/

namespace Manpage

/-- How grave a diagnostic is. -/
inductive Severity where
  | error
  | warning
deriving DecidableEq

/-- A message about a stretch of one line, lines and columns counted from zero. -/
structure Diagnostic where
  severity : Severity
  message : Text
  line : Int
  start : Int
  stop : Int
deriving DecidableEq

namespace Diagnostic

/-- The name of the tool in its diagnostics. -/
def origin : Text :=
  "termroff"

/-- A message about a stretch of one character at least, from a place counted from one. -/
def ofPlace (severity : Severity) (message : Text) (line column : Int) (length : Nat) :
    Diagnostic :=
  ⟨severity, message, line - 1, column - 1, column - 1 + max 1 length⟩

/-- The diagnostic of a fault: on its token, or on the last line where there is none. -/
def ofFault (source : Text) (f : Fault) : Diagnostic :=
  match f.token? with
  | some t => .ofPlace .error f.message t.line t.column t.value.length
  | none => .ofPlace .error f.message (max 1 source.splitLines.length) 1 1

/-- The diagnostic of a warning. -/
def ofWarning (w : Warning) : Diagnostic :=
  .ofPlace .warning w.message w.line w.column 1

end Diagnostic

/-- The diagnostics of a source: its fault, if it has one, and its warnings in the order of their
record. A number overflow is no fault of a place, and then there are none. -/
def diagnose (source : Text) : Except Fault (List Diagnostic) :=
  let o := interpretSource source none defaultColumns
  let warnings := o.machine.warnings.map Diagnostic.ofWarning
  match o.fault with
  | none => .ok warnings
  | some .numberOverflow => .error .numberOverflow
  | some f => .ok (Diagnostic.ofFault source f :: warnings)

end Manpage
