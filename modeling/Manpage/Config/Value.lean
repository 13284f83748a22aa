import Manpage.Number.Shortest
import Manpage.Text.Integer
import Manpage.Text.Quoted

/-!
# Configuration values

The values of a configuration file, and the text by which a message refers to one.

## Main definitions

* `Manpage.Config.Date`, `Manpage.Config.TimeOfDay` — parts of a point in time.
* `Manpage.Config.Value` — a value.
* `Manpage.Config.Limits` — how deep values may lie in one another.
* `Manpage.Config.Value.shown` — its text in messages.
* `Manpage.Config.Value.hindrance?` — why a message cannot hold that text.
-/

namespace Manpage.Config

/-! ## Points in time -/

/-- A day of the calendar. -/
structure Date where
  year : Nat
  month : Nat
  day : Nat
deriving DecidableEq

/-- A time of the day, to the microsecond. -/
structure TimeOfDay where
  hour : Nat
  minute : Nat
  second : Nat
  microsecond : Nat
deriving DecidableEq

namespace Date

/-- A year with a leap day. -/
def isLeapYear (year : Nat) : Bool :=
  year % 4 == 0 && (year % 100 != 0 || year % 400 == 0)

/-- The number of days of a month. -/
def daysOfMonth (year month : Nat) : Nat :=
  if month == 2 then if isLeapYear year then 29 else 28
  else if month == 4 || month == 6 || month == 9 || month == 11 then 30
  else 31

/-- A day that the calendar has; it begins with the year one. -/
def isValid (d : Date) : Bool :=
  1 ≤ d.year && 1 ≤ d.month && d.month ≤ 12 && 1 ≤ d.day && d.day ≤ daysOfMonth d.year d.month

/-- The numbers of a day, from the year on. -/
def numbers (d : Date) : List Nat :=
  [d.year, d.month, d.day]

end Date

namespace TimeOfDay

/-- The numbers of a time, from the hour on; seconds and microseconds that are zero are left out at
the end. -/
def numbers (t : TimeOfDay) : List Nat :=
  if t.microsecond != 0 then [t.hour, t.minute, t.second, t.microsecond]
  else if t.second != 0 then [t.hour, t.minute, t.second]
  else [t.hour, t.minute]

end TimeOfDay

/-! ## Values -/

/-- A value of a configuration file. Tables keep the order of their entries. -/
inductive Value where
  | text (t : Text)
  | integer (n : Int)
  | double (x : Double)
  | boolean (b : Bool)
  | date (d : Date)
  | time (t : TimeOfDay)
  /-- a date and a time, with the distance from universal time in minutes if it is known -/
  | moment (d : Date) (t : TimeOfDay) (offset : Option Int)
  | list (items : List Value)
  | table (entries : List (Text × Value))

namespace Value

/-- The entry of a table. -/
def entry? (v : Value) (key : Text) : Option Value :=
  match v with
  | table entries => entries.lookup key
  | _ => none

end Value

/-! ## Sizes -/

/-- How deep values may lie in one another. Reading a value and showing it both call themselves for
the values in it, and the machine that runs them allows only so many calls at once; how many are
left depends on the machine and on the calls that led there, and not on the format. So the limits
are a parameter of all that rests on them. -/
structure Limits where
  /-- the room for values in one another when a file is read -/
  room : Nat
  /-- the room that a list takes from the values in it -/
  list : Nat
  /-- the room that a table between braces takes from the values in it -/
  table : Nat
  /-- the depth to which values are shown -/
  shown : Nat

/-- The limits of a machine that allows a thousand calls at once, for a run that starts with none
but the first few. -/
def Limits.usual : Limits where
  room := 989
  list := 2
  table := 3
  shown := 990

/-- Why the text of a value cannot be shown in a message. -/
inductive Hindrance where
  /-- an integer has too many digits -/
  | tooManyDigits
  /-- values are nested too deep -/
  | tooDeep
deriving DecidableEq

/-- An integer with more decimal digits than are shown; that are as many as are read. -/
def hasTooManyDigits (n : Int) : Bool :=
  Nat.pow 10 Text.maxDigits ≤ n.natAbs

namespace Value

mutual

/-- What keeps a value from being shown, if anything does, where values may be nested to a given
depth. -/
def hindranceWithin : Nat → Value → Option Hindrance
  | 0, _ => some .tooDeep
  | depth + 1, v =>
    match v with
    | integer n => if hasTooManyDigits n then some .tooManyDigits else none
    | list items => hindranceOfItems depth items
    | table entries => hindranceOfEntries depth entries
    | text _ | double _ | boolean _ | date _ | time _ | moment _ _ _ => none

/-- What keeps the first of some items that cannot be shown from being so. -/
def hindranceOfItems (depth : Nat) : List Value → Option Hindrance
  | [] => none
  | v :: more => (hindranceWithin depth v).orElse fun _ => hindranceOfItems depth more

/-- What keeps the first of some entries that cannot be shown from being so. -/
def hindranceOfEntries (depth : Nat) : List (Text × Value) → Option Hindrance
  | [] => none
  | (_, v) :: more => (hindranceWithin depth v).orElse fun _ => hindranceOfEntries depth more

end

/-- What keeps a value from being shown in a message, if anything does. -/
def hindrance? (limits : Limits) (v : Value) : Option Hindrance :=
  hindranceWithin limits.shown v

end Value

/-! ## Values in messages -/

namespace Value

/-- Numbers with commas between them. -/
def numberList (ns : List Nat) : Text :=
  Text.join [',', ' '] (ns.map Text.ofNat)

/-- A distance in minutes as days and seconds, of which only the days can be negative. -/
def duration (minutes : Int) : Text :=
  let seconds := (minutes * 60) % 86400
  let parts :=
    (if minutes < 0 then ["days=-1".toList] else [])
      ++ if seconds = 0 then [] else ["seconds=".toList ++ Text.ofInt seconds]
  "datetime.timedelta(".toList ++ Text.join [',', ' '] parts ++ [')']

/-- A distance from universal time. -/
def zone (minutes : Int) : Text :=
  if minutes = 0 then "datetime.timezone.utc"
  else "datetime.timezone(".toList ++ duration minutes ++ [')']

mutual

/-- The text of a value in messages. -/
def shown : Value → Text
  | text t => t.quoted
  | integer n => Text.ofInt n
  | double x => x.text
  | boolean b => if b then "True" else "False"
  | date d => "datetime.date(".toList ++ numberList d.numbers ++ [')']
  | time t => "datetime.time(".toList ++ numberList t.numbers ++ [')']
  | moment d t offset =>
    "datetime.datetime(".toList ++ numberList (d.numbers ++ t.numbers)
      ++ (match offset with
          | none => []
          | some minutes => ", tzinfo=".toList ++ zone minutes)
      ++ [')']
  | list items => '[' :: shownItems items ++ [']']
  | table entries => '\x7b' :: shownEntries entries ++ ['\x7d']

/-- The texts of the items of a list, with commas between them. -/
def shownItems : List Value → Text
  | [] => []
  | [v] => v.shown
  | v :: w :: more => v.shown ++ [',', ' '] ++ shownItems (w :: more)

/-- The texts of the entries of a table, with commas between them. -/
def shownEntries : List (Text × Value) → Text
  | [] => []
  | [(key, v)] => key.quoted ++ [':', ' '] ++ v.shown
  | (key, v) :: e :: more =>
    key.quoted ++ [':', ' '] ++ v.shown ++ [',', ' '] ++ shownEntries (e :: more)

end

end Value

end Manpage.Config
