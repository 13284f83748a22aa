import Manpage.Command.Options
import Manpage.Proofs.Config.Settings

/-!
# Options of a run

A run has options unless its configuration file is refused or cannot be read. Whether it is refused
depends on the file alone, and so does what it sets; the command line only counts before it.

## Main definitions

* `Manpage.Config.reading?` — what is read from a configuration file that is a text.
* `Manpage.Config.IsMalformed`, `Manpage.Config.wrong?` — what a configuration file is refused for.
* `Manpage.Config.Accepted` — a configuration file that sets something, or that is not there.

## Main results

* `Manpage.Options.taken_settingsOf` — a configuration file is accepted, refused or not read.
-/

namespace Manpage

namespace Config

/-- What is read from a configuration file, if there is one and it is a text. -/
def reading? (limits : Limits) (contents : Except FileError (List UInt8)) :
    Option (Except Flaw Value) :=
  match contents with
  | .error _ => none
  | .ok bytes =>
    match Utf8.decode bytes with
    | .error _ => none
    | .ok source => some (parse limits source)

/-- The value of a configuration file that could be read. -/
def value? (limits : Limits) (contents : Except FileError (List UInt8)) : Option Value :=
  match reading? limits contents with
  | some (.ok v) => some v
  | _ => none

/-- A configuration file that breaks the rules of the format. -/
def IsMalformed (limits : Limits) (contents : Except FileError (List UInt8)) : Prop :=
  reading? limits contents = some (.error .malformed)

/-- The first setting of a configuration file with a value of the wrong kind. -/
def wrong? (limits : Limits) (contents : Except FileError (List UInt8)) : Option (Text × Value) :=
  (value? limits contents).bind Value.wrong?

/-- A malformed file has no settings. -/
theorem IsMalformed.wrong?_eq_none {limits : Limits} {contents : Except FileError (List UInt8)}
    (h : IsMalformed limits contents) : wrong? limits contents = none := by
  rw [IsMalformed] at h
  simp [wrong?, value?, h]

/-- The section that a configuration file sets. -/
def requested? (limits : Limits) (contents : Except FileError (List UInt8)) : Option Text :=
  (value? limits contents).bind Value.requested?

/-- The number of columns that a configuration file sets. -/
def columns? (limits : Limits) (contents : Except FileError (List UInt8)) : Option Int :=
  (value? limits contents).bind Value.columns?

/-- A configuration file whose refusal is reported: it breaks the rules of the format, or sets
something to a value of the wrong kind that can be shown. -/
def IsReported (limits : Limits) (contents : Except FileError (List UInt8)) : Prop :=
  IsMalformed limits contents ∨
    ∃ name w, wrong? limits contents = some (name, w) ∧ w.hindrance? limits = none

/-- A configuration file that is not there, or in which no value is of the wrong kind. -/
inductive Accepted (limits : Limits) : Except FileError (List UInt8) → Prop
  | absent {e : FileError} (h : e.meansNoFile = true) : Accepted limits (.error e)
  | valid {bytes : List UInt8} {v : Value} (h : value? limits (.ok bytes) = some v)
      (hright : v.wrong? = none) : Accepted limits (.ok bytes)

/-- A configuration file that is accepted is not refused. It is absent or has the right values, so
it is not malformed and has no wrong one. -/
theorem Accepted.not_isReported {limits : Limits} {contents : Except FileError (List UInt8)}
    (h : Accepted limits contents) : ¬ IsReported limits contents := by
  cases h with
  | absent h => simp [IsReported, IsMalformed, reading?, wrong?, value?]
  | valid h hright =>
    rintro (hmalformed | ⟨name, w, hwrong, -⟩)
    · simp only [IsMalformed] at hmalformed
      simp [value?, hmalformed] at h
    · simp [wrong?, h, hright] at hwrong

end Config

namespace Options

open Config

variable {limits : Limits}

/-- The ways in which a configuration file is taken. -/
inductive Taken (limits : Limits) (p : Path) (contents : Except FileError (List UInt8)) :
    Except Obstacle Settings → Prop
  | accepted (h : Accepted limits contents) :
      Taken limits p contents (.ok ⟨requested? limits contents, columns? limits contents⟩)
  | refused {r : Refusal} (h : ¬ Accepted limits contents)
      (hreported : r.isReported = true ↔ IsReported limits contents) :
      Taken limits p contents (.error (.refused r))
  | unreadable {e : FileError} (h : ¬ Accepted limits contents)
      (hreported : ¬ IsReported limits contents) :
      Taken limits p contents (.error (.unreadable e p))

/-- The settings of a configuration file that is accepted. -/
theorem Taken.eq_ok {p : Path} {contents : Except FileError (List UInt8)}
    {taken : Except Obstacle Settings} (h : Taken limits p contents taken)
    (haccepted : Accepted limits contents) :
    taken = .ok ⟨requested? limits contents, columns? limits contents⟩ := by
  cases h with
  | accepted => rfl
  | refused h => exact absurd haccepted h
  | unreadable h => exact absurd haccepted h

/-- A text that is no configuration file is refused, which is reported if it is malformed. -/
theorem taken_of_flaw {p : Path} {bytes : List UInt8} {source : Text} {flaw : Flaw}
    (hsource : Utf8.decode bytes = .ok source) (hflaw : parse limits source = .error flaw) :
    Taken limits p (.ok bytes) (.error (.refused (.unreadable flaw))) := by
  have hreading : reading? limits (.ok bytes) = some (.error flaw) := by
    simp [reading?, hsource, hflaw]
  have hvalue : value? limits (.ok bytes) = none := by simp [value?, hreading]
  refine .refused (fun h => ?_) ?_
  · cases h with
    | valid h => simp [hvalue] at h
  · simp only [IsReported, IsMalformed, hreading, wrong?, hvalue]
    cases flaw <;> simp [Refusal.isReported]

/-- A configuration file with a value is refused where a setting in it is of the wrong kind, and
else accepted with the settings that it has.

**Proof sketch.** By cases on whether there is a setting of the wrong kind. If there is, it is the
first one that is looked at, and the refusal is reported just if its value can be shown. -/
theorem taken_of_value {p : Path} {bytes : List UInt8} {source : Text} {v : Value}
    (hsource : Utf8.decode bytes = .ok source) (hv : parse limits source = .ok v) :
    Taken limits p (.ok bytes) ((Settings.ofValue limits v).mapError .refused) := by
  have hreading : reading? limits (.ok bytes) = some (.ok v) := by simp [reading?, hsource, hv]
  have hvalue : value? limits (.ok bytes) = some v := by simp [value?, hreading]
  rw [Settings.ofValue_eq_of_wrong?]
  cases hwrong : v.wrong? with
  | none =>
    have hsettings : (⟨v.requested?, v.columns?⟩ : Settings) =
        ⟨requested? limits (.ok bytes), columns? limits (.ok bytes)⟩ := by
      simp [requested?, columns?, hvalue]
    rw [hsettings]
    exact .accepted (.valid hvalue hwrong)
  | some w =>
    obtain ⟨name, w⟩ := w
    refine .refused (fun h => ?_) ?_
    · cases h with
      | valid h hright =>
        obtain rfl := Option.some.inj (hvalue.symm.trans h)
        simp [hwrong] at hright
    · rw [Refusal.isReported_ofWrongKind]
      -- a value of the wrong kind is reported just if it can be shown
      have hmine : Config.wrong? limits (.ok bytes) = some (name, w) := by
        simp [Config.wrong?, hvalue, hwrong]
      have hformed : ¬ IsMalformed limits (.ok bytes) := by simp [IsMalformed, hreading]
      constructor
      · intro hshown
        exact .inr ⟨name, w, hmine, Option.isNone_iff_eq_none.mp hshown⟩
      · rintro (hmalformed | ⟨name', w', hsome, hshown⟩)
        · exact absurd hmalformed hformed
        · obtain ⟨rfl, rfl⟩ := Prod.mk.inj (Option.some.inj (hmine.symm.trans hsome))
          exact Option.isNone_iff_eq_none.mpr hshown

/-- **How a configuration file is taken.** It is accepted, refused, or cannot be read.

**Proof sketch.** By cases on how far the reading goes: whether there is a file, whether its bytes
are a text, and whether the text is parsed. -/
theorem taken_settingsOf (limits : Limits) (p : Path) (contents : Except FileError (List UInt8)) :
    Taken limits p contents (settingsOf limits p contents) := by
  cases contents with
  | error e =>
    cases hfile : e.meansNoFile with
    | true =>
      simp only [settingsOf, hfile, if_true]
      exact .accepted (.absent hfile)
    | false =>
      simp only [settingsOf, hfile, Bool.false_eq_true, if_false]
      refine .unreadable (fun h => ?_) ?_
      · cases h with
        | absent h => simp [hfile] at h
      · simp [IsReported, IsMalformed, reading?, Config.wrong?, value?]
  | ok bytes =>
    simp only [settingsOf, Settings.ofBytes]
    cases hsource : Utf8.decode bytes with
    | error flaw =>
      -- nothing is read of bytes that are no text, and the command does not report them
      have hreading : reading? limits (.ok bytes) = none := by simp [reading?, hsource]
      refine .refused (fun h => ?_) ?_
      · cases h with
        | valid h => simp [value?, hreading] at h
      · simp [IsReported, IsMalformed, hreading, Config.wrong?, value?, Refusal.isReported]
    | ok source =>
      cases hparse : parse limits source with
      | error flaw =>
        simp only [hparse]
        exact taken_of_flaw hsource hparse
      | ok v =>
        simp only [hparse]
        exact taken_of_value hsource hparse

end Options

end Manpage
