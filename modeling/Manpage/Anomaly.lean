import Manpage.Text.Quoted
import Manpage.Token.Basic

/-!
# Anomalies

What is unusual in a source but does not stop its interpretation. Each anomaly is about a token and
is reported as a warning, with the place of that token.

## Main definitions

* `Manpage.Anomaly` — the anomalies, with `Manpage.Anomaly.message`.
* `Manpage.Warning` — a message with a place, and `Manpage.Warning.report`, how it is shown.
-/

namespace Manpage

/-- The anomalies of a source. -/
inductive Anomaly where
  | unknownMacro (name : Text)
  | notANumber (argument : Text)
  | nonPositiveSkip (amount : Int)
  | unsupportedString (name : Text)
  | unsupportedEscape (command : Text)
  | unsupportedFont (name : Text)
  | unknownCharacter (name : Text)
deriving DecidableEq

namespace Anomaly

/-- What a warning says about an anomaly. -/
def message : Anomaly → Text
  | unknownMacro name => "unknown macro ".toList ++ name.quoted
  | notANumber argument => "expected a number, found ".toList ++ argument.quoted
  | nonPositiveSkip amount => "ignoring non-positive .sp argument ".toList ++ Text.ofInt amount
  | unsupportedString name => "unsupported string escape '\\*".toList ++ name ++ ['\'']
  | unsupportedEscape command => "unsupported escape '\\".toList ++ command ++ ['\'']
  | unsupportedFont name => "unsupported font ".toList ++ name.quoted
  | unknownCharacter name => "unknown special character ".toList ++ name.quoted

end Anomaly

/-- A message about a place in a source. -/
structure Warning where
  message : Text
  line : Int
  column : Int
deriving DecidableEq

namespace Warning

/-- The warning about an anomaly, at the place of a token. -/
def about (anomaly : Anomaly) (t : Token) : Warning :=
  ⟨anomaly.message, t.line, t.column⟩

/-- The warning as it is shown, for a source in a given file. -/
def report (w : Warning) (file : Text) : Text :=
  "warning: ".toList ++ w.message ++ "\n  --> ".toList ++ file ++ [':'] ++ Text.ofInt w.line
    ++ [':'] ++ Text.ofInt w.column

end Warning

end Manpage
