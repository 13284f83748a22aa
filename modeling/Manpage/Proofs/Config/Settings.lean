import Manpage.Config.Settings

/-!
# What a configuration file sets

A file sets a section by a text and a number of columns by an integer, both in the table named for
rendering. A value of another kind in their place is refused, that of the section before that of the
columns; nothing else in the file matters.

## Main definitions

* `Manpage.Config.Value.setting?` — a setting.
* `Manpage.Config.Value.wrong?` — the first setting with a value of the wrong kind.

## Main results

* `Manpage.Config.Settings.ofValue_eq_of_wrong?` — what a file sets, or the value it is refused for.
-/

namespace Manpage.Config

variable (limits : Limits)

namespace Value

/-- The text that a value is. -/
def text? : Value → Option Text
  | text t => some t
  | _ => none

/-- The integer that a value is. A truth value is none. -/
def integer? : Value → Option Int
  | integer n => some n
  | _ => none

/-- The value of a setting: an entry of the table named for rendering. -/
def setting? (v : Value) (name : Text) : Option Value :=
  (v.entry? "render").bind fun t => t.entry? name

/-- The section that a file sets. -/
def requested? (v : Value) : Option Text :=
  (v.setting? "section").bind text?

/-- The number of columns that a file sets. -/
def columns? (v : Value) : Option Int :=
  (v.setting? "width").bind integer?

/-- The value of a setting, if it is of the wrong kind, with the name by which messages refer to the
setting. -/
def misplaced? {α : Type} (kind : Value → Option α) (name : Text) (v : Option Value) :
    Option (Text × Value) :=
  (v.filter fun w => (kind w).isNone).map fun w => (name, w)

/-- The first setting with a value of the wrong kind: a section that is no text, or else a number of
columns that is no integer. -/
def wrong? (v : Value) : Option (Text × Value) :=
  (misplaced? text? "render.section" (v.setting? "section")).or
    (misplaced? integer? "render.width" (v.setting? "width"))

/-- An integer is shown unless it has too many digits, where anything is shown. -/
theorem hindrance?_integer (h : 0 < limits.shown) (n : Int) :
    (integer n).hindrance? limits = if hasTooManyDigits n then some .tooManyDigits else none := by
  obtain ⟨depth, hdepth⟩ := Nat.exists_eq_add_one.mpr h
  rw [hindrance?, hdepth, hindranceWithin]

end Value

/-- A value of the wrong kind is reported unless it cannot be shown. -/
theorem Refusal.isReported_ofWrongKind (name : Text) (w : Value) :
    (Refusal.ofWrongKind limits name w).isReported = (w.hindrance? limits).isNone := by
  rw [ofWrongKind]
  cases w.hindrance? limits <;> rfl

namespace Settings

/-- The section that a value sets, unless the value is of the wrong kind. -/
theorem sectionOf_eq (v : Option Value) :
    sectionOf limits v =
      match Value.misplaced? Value.text? "render.section" v with
      | none => .ok (v.bind Value.text?)
      | some (name, w) => .error (.ofWrongKind limits name w) := by
  rcases v with - | v
  · rfl
  · cases v <;> rfl

/-- The number of columns that a value sets, unless the value is of the wrong kind. -/
theorem columnsOf_eq (v : Option Value) :
    columnsOf limits v =
      match Value.misplaced? Value.integer? "render.width" v with
      | none => .ok (v.bind Value.integer?)
      | some (name, w) => .error (.ofWrongKind limits name w) := by
  rcases v with - | v
  · rfl
  · cases v <;> rfl

/-- The settings of a file are those of its table for rendering, if it has one. Without such a table
both are missing. -/
theorem ofValue_eq (v : Value) :
    ofValue limits v = do
      let requested ← sectionOf limits (v.setting? "section")
      let columns ← columnsOf limits (v.setting? "width")
      return ⟨requested, columns⟩ := by
  simp only [ofValue, Value.setting?]
  cases v.entry? "render" with
  | none => rfl
  | some t => cases t <;> rfl

/-- **The settings of a file**, which is refused for the first value of the wrong kind. The section
is looked at before the width. -/
theorem ofValue_eq_of_wrong? (v : Value) :
    ofValue limits v =
      match v.wrong? with
      | none => .ok ⟨v.requested?, v.columns?⟩
      | some (name, w) => .error (.ofWrongKind limits name w) := by
  rw [ofValue_eq, sectionOf_eq, columnsOf_eq, Value.wrong?]
  cases Value.misplaced? Value.text? "render.section" (v.setting? "section") with
  | some w => rfl
  | none => cases Value.misplaced? Value.integer? "render.width" (v.setting? "width") <;> rfl

end Settings

end Manpage.Config
