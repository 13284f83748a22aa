import Manpage.Config.Value

/-!
# Scalars of a configuration file

The reading of texts, numbers, dates and times at the start of a text. Each reader gives what it has
read and the rest of the text.

## Main definitions

* `Manpage.Config.Flaw` — why a file is refused.
* `Manpage.Config.string` — a text between quotes of any kind.
* `Manpage.Config.moment?`, `Manpage.Config.timeOfDay?`, `Manpage.Config.number?` — points in time
  and numbers.
* `Manpage.Config.scalar` — a value other than a text, a list or a table.
-/

namespace Manpage.Config

/-- Why a configuration file is refused. -/
inductive Flaw where
  /-- it breaks the rules of the format -/
  | malformed
  /-- an integer has more digits than are read -/
  | tooManyDigits (count : Nat)
  /-- values are nested too deep -/
  | tooDeep
deriving DecidableEq

/-! ## Characters -/

/-- A space or a tab. -/
def isGap (c : Char) : Bool :=
  c == ' ' || c == '\t'

/-- A control character other than a tab. -/
def isControl (c : Char) : Bool :=
  (c.toNat < 32 && c != '\t') || c.toNat == 127

/-- A hexadecimal digit. -/
def isHexDigit (c : Char) : Bool :=
  c.isDigit || ('a' ≤ c && c ≤ 'f') || ('A' ≤ c && c ≤ 'F')

/-- The value of a digit of any radix up to sixteen. -/
def radixDigit (c : Char) : Nat :=
  if c.isDigit then c.toNat - 48 else if 'a' ≤ c then c.toNat - 87 else c.toNat - 55

/-- The number that digits denote in a radix. -/
def ofDigits (radix : Nat) (digits : Text) : Nat :=
  digits.foldl (fun n c => radix * n + radixDigit c) 0

/-- A text without the spaces and tabs at its start. -/
def skipGaps (t : Text) : Text :=
  t.dropWhile isGap

/-! ## Texts -/

/-- A character given by so many hexadecimal digits. -/
def hexCharacter (count : Nat) (t : Text) : Except Flaw (Text × Text) :=
  let digits := t.take count
  let n := ofDigits 16 digits
  if digits.length == count && digits.all isHexDigit && n.isValidChar then
    .ok ([Char.ofNat n], t.drop count)
  else .error .malformed

/-- What follows a backslash at the end of a line in a text of several lines: all blanks up to the
next other character are left out. -/
def continuedLine (t : Text) : Except Flaw (Text × Text) :=
  match skipGaps t with
  | [] => .ok ([], [])
  | '\n' :: rest => .ok ([], rest.dropWhile fun c => isGap c || c == '\n')
  | _ :: _ => .error .malformed

/-- What follows a backslash. -/
def escape (multiline : Bool) : Text → Except Flaw (Text × Text)
  | 'b' :: t => .ok (['\x08'], t)
  | 't' :: t => .ok (['\t'], t)
  | 'n' :: t => .ok (['\n'], t)
  | 'f' :: t => .ok (['\x0c'], t)
  | 'r' :: t => .ok (['\r'], t)
  | '"' :: t => .ok (['"'], t)
  | '\\' :: t => .ok (['\\'], t)
  | 'u' :: t => hexCharacter 4 t
  | 'U' :: t => hexCharacter 8 t
  | t => if multiline then continuedLine t else .error .malformed

/-- A text in double quotes, after the opening quotes. -/
def basicString (multiline : Bool) : Nat → Text → Except Flaw (Text × Text)
  | 0, _ => .error .malformed
  | fuel + 1, t => do
    match t with
    | [] => .error .malformed
    | '\\' :: t =>
      let (first, t) ← escape multiline t
      let (more, t) ← basicString multiline fuel t
      return (first ++ more, t)
    | '"' :: t =>
      if !multiline then return ([], t)
      else
        match t with
        | '"' :: '"' :: t => return ([], t)
        | t =>
          let (more, t) ← basicString multiline fuel t
          return ('"' :: more, t)
    | c :: t =>
      if isControl c && !(multiline && c == '\n') then .error .malformed
      else
        let (more, t) ← basicString multiline fuel t
        return (c :: more, t)

/-- A text in single quotes, after the opening quote. -/
def literalString (t : Text) : Except Flaw (Text × Text) :=
  let body := t.takeWhile (· != '\'')
  match t.dropWhile (· != '\'') with
  | [] => .error .malformed
  | _ :: rest => if body.any isControl then .error .malformed else .ok (body, rest)

/-- The text before three single quotes, and the text after them. -/
def untilTriple : Text → Option (Text × Text)
  | [] => none
  | '\'' :: '\'' :: '\'' :: t => some ([], t)
  | c :: t => (untilTriple t).map fun (body, rest) => (c :: body, rest)

/-- A text of several lines in single quotes, after the opening quotes. -/
def literalLines (t : Text) : Except Flaw (Text × Text) :=
  match untilTriple t with
  | none => .error .malformed
  | some (body, rest) =>
    if body.any fun c => isControl c && c != '\n' then .error .malformed else .ok (body, rest)

/-- One or two quotes more than the closing three belong to the text. -/
def withExtraQuotes (quote : Char) (body rest : Text) : Text × Text :=
  match rest with
  | c :: d :: t =>
    if c == quote then
      if d == quote then (body ++ [quote, quote], t) else (body ++ [quote], d :: t)
    else (body, rest)
  | [c] => if c == quote then (body ++ [quote], []) else (body, rest)
  | [] => (body, [])

/-- A line feed right after the opening quotes is left out. -/
def dropFirstLineFeed : Text → Text
  | '\n' :: t => t
  | t => t

/-- A text between quotes, on one line. -/
def lineString : Text → Except Flaw (Text × Text)
  | '"' :: t => basicString false (t.length + 1) t
  | '\'' :: t => literalString t
  | _ => .error .malformed

/-- A text between quotes of any kind. -/
def string : Text → Except Flaw (Text × Text)
  | '"' :: '"' :: '"' :: t => do
    let (body, rest) ← basicString true (t.length + 1) (dropFirstLineFeed t)
    return withExtraQuotes '"' body rest
  | '\'' :: '\'' :: '\'' :: t => do
    let (body, rest) ← literalLines (dropFirstLineFeed t)
    return withExtraQuotes '\'' body rest
  | t => lineString t

/-! ## Points in time -/

/-- A number of so many digits, between two bounds. -/
def fixedNumber? (count low high : Nat) (t : Text) : Option (Nat × Text) :=
  let digits := t.take count
  let n := ofDigits 10 digits
  if digits.length == count && digits.all Char.isDigit && low ≤ n && n ≤ high then
    some (n, t.drop count)
  else none

/-- The text after a given character. -/
def after? (c : Char) : Text → Option Text
  | d :: t => if d == c then some t else none
  | [] => none

/-- The microseconds of a fraction, of which the first six digits count. -/
def microseconds (t : Text) : Nat × Text :=
  match t with
  | '.' :: t =>
    let digits := t.takeWhile Char.isDigit
    if digits.isEmpty then (0, '.' :: t)
    else
      let used := digits.take 6
      (ofDigits 10 used * Nat.pow 10 (6 - used.length), t.dropWhile Char.isDigit)
  | t => (0, t)

/-- A time of the day. -/
def timeOfDay? (t : Text) : Option (TimeOfDay × Text) := do
  let (hour, t) ← fixedNumber? 2 0 23 t
  let t ← after? ':' t
  let (minute, t) ← fixedNumber? 2 0 59 t
  let t ← after? ':' t
  let (second, t) ← fixedNumber? 2 0 59 t
  let (micros, t) := microseconds t
  return (⟨hour, minute, second, micros⟩, t)

/-- A day, which need not exist. -/
def date? (t : Text) : Option (Date × Text) := do
  let (year, t) ← fixedNumber? 4 0 9999 t
  let t ← after? '-' t
  let (month, t) ← fixedNumber? 2 1 12 t
  let t ← after? '-' t
  let (day, t) ← fixedNumber? 2 1 31 t
  return (⟨year, month, day⟩, t)

/-- Hours and minutes of a distance from universal time. -/
def offsetMinutes? (t : Text) : Option (Int × Text) := do
  let (hours, t) ← fixedNumber? 2 0 23 t
  let t ← after? ':' t
  let (minutes, t) ← fixedNumber? 2 0 59 t
  return (60 * hours + minutes, t)

/-- A distance from universal time, if one follows. -/
def offset (t : Text) : Option Int × Text :=
  match t with
  | 'Z' :: t => (some 0, t)
  | 'z' :: t => (some 0, t)
  | '+' :: rest =>
    match offsetMinutes? rest with
    | some (n, t) => (some n, t)
    | none => (none, t)
  | '-' :: rest =>
    match offsetMinutes? rest with
    | some (n, t) => (some (-n), t)
    | none => (none, t)
  | t => (none, t)

/-- A time of the day after the letter or the space that divides it from the date. -/
def dividedTime? : Text → Option (TimeOfDay × Text)
  | c :: t => if c == 'T' || c == 't' || c == ' ' then timeOfDay? t else none
  | [] => none

/-- A date with a time, or a date alone. -/
def moment? (t : Text) : Option (Date × Value × Text) := do
  let (d, t) ← date? t
  match dividedTime? t with
  | none => return (d, .date d, t)
  | some (time, t) =>
    let (distance, t) := offset t
    return (d, .moment d time distance, t)

/-! ## Numbers -/

/-- Digits, with single underscores before them, as far as they go. -/
def digitRun (p : Char → Bool) : Text → Text × Text
  | '_' :: c :: t =>
    if p c then
      let (digits, rest) := digitRun p t
      (c :: digits, rest)
    else ([], '_' :: c :: t)
  | c :: t =>
    if p c then
      let (digits, rest) := digitRun p t
      (c :: digits, rest)
    else ([], c :: t)
  | [] => ([], [])

/-- One digit at least, with single underscores between digits. -/
def digits? (p : Char → Bool) : Text → Option (Text × Text)
  | [] => none
  | c :: t =>
    if p c then
      let (digits, rest) := digitRun p t
      some (c :: digits, rest)
    else none

/-- A number in a radix other than ten, after its mark. -/
def radixNumber? (t : Text) : Option (Int × Text) :=
  match t with
  | '0' :: 'x' :: t => (digits? isHexDigit t).map fun (ds, rest) => ((ofDigits 16 ds : Nat), rest)
  | '0' :: 'b' :: t =>
    (digits? (fun c => c == '0' || c == '1') t).map fun (ds, rest) => ((ofDigits 2 ds : Nat), rest)
  | '0' :: 'o' :: t =>
    (digits? (fun c => '0' ≤ c && c ≤ '7') t).map fun (ds, rest) => ((ofDigits 8 ds : Nat), rest)
  | _ => none

/-- The whole part of a decimal number: a zero, or digits that do not begin with one. -/
def wholePart? : Text → Option (Text × Text)
  | '0' :: t => some (['0'], t)
  | t => digits? Char.isDigit t

/-- A fraction, if one follows. -/
def fraction? : Text → Option (Text × Text)
  | '.' :: t => digits? Char.isDigit t
  | _ => none

/-- A power of ten, if one follows. -/
def power? : Text → Option (Int × Text)
  | c :: t =>
    if c == 'e' || c == 'E' then
      match t with
      | '+' :: t => (digits? Char.isDigit t).map fun (ds, rest) => ((ofDigits 10 ds : Nat), rest)
      | '-' :: t => (digits? Char.isDigit t).map fun (ds, rest) => (-(ofDigits 10 ds : Nat), rest)
      | t => (digits? Char.isDigit t).map fun (ds, rest) => ((ofDigits 10 ds : Nat), rest)
    else none
  | [] => none

/-- A decimal number after its sign. With a fraction or a power it is a double. -/
def decimalNumber? (negative : Bool) (t : Text) : Option (Except Flaw (Value × Text)) := do
  let (whole, t) ← wholePart? t
  let fraction := fraction? t
  let (fractional, t) := fraction.getD ([], t)
  let exponent := power? t
  let (power, rest) := exponent.getD (0, t)
  if fraction.isNone && exponent.isNone then
    if Text.maxDigits < whole.length then return .error (.tooManyDigits whole.length)
    else
      let n : Int := ofDigits 10 whole
      return .ok (.integer (if negative then -n else n), rest)
  else
    let digits := ofDigits 10 (whole ++ fractional)
    return .ok (.double (.ofDecimal negative digits (power - fractional.length)), rest)

/-- A number. -/
def number? (t : Text) : Option (Except Flaw (Value × Text)) :=
  match radixNumber? t with
  | some (n, rest) => some (.ok (.integer n, rest))
  | none =>
    match t with
    | '+' :: t => decimalNumber? false t
    | '-' :: t => decimalNumber? true t
    | t => decimalNumber? false t

/-- An infinity or the undefined number. -/
def special : Text → Except Flaw (Value × Text)
  | 'i' :: 'n' :: 'f' :: t => .ok (.double (.infinite false), t)
  | '+' :: 'i' :: 'n' :: 'f' :: t => .ok (.double (.infinite false), t)
  | '-' :: 'i' :: 'n' :: 'f' :: t => .ok (.double (.infinite true), t)
  | 'n' :: 'a' :: 'n' :: t => .ok (.double .undefined, t)
  | '+' :: 'n' :: 'a' :: 'n' :: t => .ok (.double .undefined, t)
  | '-' :: 'n' :: 'a' :: 'n' :: t => .ok (.double .undefined, t)
  | _ => .error .malformed

/-- A value other than a text, a list or a table. A day that does not exist is refused. -/
def scalar (t : Text) : Except Flaw (Value × Text) :=
  match t with
  | 't' :: 'r' :: 'u' :: 'e' :: rest => .ok (.boolean true, rest)
  | 'f' :: 'a' :: 'l' :: 's' :: 'e' :: rest => .ok (.boolean false, rest)
  | t =>
    match moment? t with
    | some (d, v, rest) => if d.isValid then .ok (v, rest) else .error .malformed
    | none =>
      match timeOfDay? t with
      | some (time, rest) => .ok (.time time, rest)
      | none => (number? t).getD (special t)

end Manpage.Config
