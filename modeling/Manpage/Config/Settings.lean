import Manpage.Config.File
import Manpage.Text.Utf8

/-!
# Settings

What a configuration file can set: the section to render and the number of columns, in the table
named for rendering. All else in the file is free.

## Main definitions

* `Manpage.Config.Settings` — the settings.
* `Manpage.Config.Refusal` — why a file is refused.
* `Manpage.Config.Settings.ofBytes` — the settings of a file.
-/

namespace Manpage.Config

/-- What a configuration file sets. -/
structure Settings where
  requested : Option Text
  columns : Option Int
deriving DecidableEq

/-- Why a configuration file is refused. -/
inductive Refusal where
  /-- it is no text -/
  | notText (flaw : Utf8.Flaw)
  /-- it cannot be read -/
  | unreadable (flaw : Flaw)
  /-- a setting has a value of the wrong kind -/
  | invalid (setting : Text) (v : Value)
  /-- a setting has a value of the wrong kind that cannot even be shown -/
  | unshowable (h : Hindrance)

/-- A refusal of what the file says, rather than of how it is encoded or of the size of its
values. -/
def Refusal.isReported : Refusal → Bool
  | notText _ => false
  | unreadable .malformed => true
  | unreadable (.tooManyDigits _) | unreadable .tooDeep => false
  | invalid _ _ => true
  | unshowable _ => false

/-- The refusal of a value of the wrong kind. -/
def Refusal.ofWrongKind (limits : Limits) (setting : Text) (v : Value) : Refusal :=
  match v.hindrance? limits with
  | none => invalid setting v
  | some h => unshowable h

namespace Settings

/-- No settings. -/
def empty : Settings :=
  ⟨none, none⟩

/-- The section that a value sets. -/
def sectionOf (limits : Limits) : Option Value → Except Refusal (Option Text)
  | none => .ok none
  | some (.text t) => .ok (some t)
  | some v => .error (.ofWrongKind limits "render.section" v)

/-- The number of columns that a value sets. -/
def columnsOf (limits : Limits) : Option Value → Except Refusal (Option Int)
  | none => .ok none
  | some (.integer n) => .ok (some n)
  | some v => .error (.ofWrongKind limits "render.width" v)

/-- The settings of a table. -/
def ofValue (limits : Limits) (v : Value) : Except Refusal Settings :=
  match v.entry? "render" with
  | some (.table entries) => do
    let requested ← sectionOf limits (entries.lookup ['s', 'e', 'c', 't', 'i', 'o', 'n'])
    let columns ← columnsOf limits (entries.lookup ['w', 'i', 'd', 't', 'h'])
    return ⟨requested, columns⟩
  | _ => .ok empty

/-- The settings of a file. -/
def ofBytes (limits : Limits) (bytes : List UInt8) : Except Refusal Settings :=
  match Utf8.decode bytes with
  | .error flaw => .error (.notText flaw)
  | .ok source =>
    match parse limits source with
    | .error flaw => .error (.unreadable flaw)
    | .ok v => ofValue limits v

end Settings

end Manpage.Config
