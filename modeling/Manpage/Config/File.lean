import Manpage.Config.Document
import Manpage.Config.Scalar

/-!
# Configuration files

A configuration file is a list of statements, one on a line: entries and headers. An entry belongs
to the table of the last header before it. Lists may extend over several lines, tables between
braces may not, and neither may be nested too deep.

## Main definitions

* `Manpage.Config.value` — any value at the start of a text.
* `Manpage.Config.key` — a dotted key at the start of a text.
* `Manpage.Config.parse` — the table of a whole file.
-/

namespace Manpage.Config

/-! ## Gaps and comments -/

/-- The rest of the line is skipped where a comment begins. -/
def skipComment : Text → Except Flaw Text
  | '#' :: t =>
    if (t.takeWhile (· != '\n')).any isControl then .error .malformed
    else .ok (t.dropWhile (· != '\n'))
  | t => .ok t

/-- Gaps, line feeds and comments are skipped, from inside a comment or not. -/
def skipFillerFrom (inComment : Bool) : Text → Except Flaw Text
  | [] => .ok []
  | c :: t =>
    if c == '\n' then skipFillerFrom false t
    else if inComment then if isControl c then .error .malformed else skipFillerFrom true t
    else if isGap c then skipFillerFrom false t
    else if c == '#' then skipFillerFrom true t
    else .ok (c :: t)

/-- Gaps, line feeds and comments are skipped. -/
def skipFiller (t : Text) : Except Flaw Text :=
  skipFillerFrom false t

/-! ## Keys -/

/-- A character of a key without quotes. -/
def isKeyCharacter (c : Char) : Bool :=
  c.isAlphanum || c == '-' || c == '_'

/-- One part of a key. -/
def keyPart (t : Text) : Except Flaw (Text × Text) :=
  match t.takeWhile isKeyCharacter with
  | [] => lineString t
  | part@(_ :: _) => .ok (part, t.dropWhile isKeyCharacter)

/-- A dotted key, and the text after the gaps behind it. -/
def keyParts : Nat → Text → Except Flaw (List Text × Text)
  | 0, _ => .error .malformed
  | fuel + 1, t => do
    let (part, t) ← keyPart t
    match skipGaps t with
    | '.' :: t =>
      let (parts, t) ← keyParts fuel (skipGaps t)
      return (part :: parts, t)
    | t => return ([part], t)

/-- A dotted key, and the text after the gaps behind it. -/
def key (t : Text) : Except Flaw (List Text × Text) :=
  keyParts (t.length + 1) t

/-- A dotted key and the equals sign, and the text after the gaps behind it. -/
def keyOfEntry (t : Text) : Except Flaw (List Text × Text) := do
  let (path, t) ← key t
  match t with
  | '=' :: t => return (path, skipGaps t)
  | _ => .error .malformed

/-! ## Values -/

/-- The room that is left inside a value that takes some of it. -/
def roomInside (taken room : Nat) : Except Flaw Nat :=
  if taken ≤ room then .ok (room - taken) else .error .tooDeep

mutual

/-- A value, given the room for values in it. The second argument bounds the depth and the number of
items. -/
def valueWithin (limits : Limits) (room : Nat) : Nat → Text → Except Flaw (Value × Text)
  | 0, _ => .error .malformed
  | fuel + 1, t =>
    match t with
    | '[' :: t => do
      let inner ← roomInside limits.list room
      let t ← skipFiller t
      match t with
      | ']' :: t => return (.list [], t)
      | t =>
        let (items, t) ← itemsWithin limits inner fuel t
        return (.list items, t)
    | '\x7b' :: t => do
      let inner ← roomInside limits.table room
      match skipGaps t with
      | '\x7d' :: t => return (.table [], t)
      | t =>
        let (entries, t) ← entriesWithin limits inner fuel [] t
        return (.table (entryValues entries), t)
    | c :: t =>
      if c == '"' || c == '\'' then do
        let (body, t) ← string (c :: t)
        return (.text body, t)
      else scalar (c :: t)
    | [] => .error .malformed

/-- The items of a list, up to its end. -/
def itemsWithin (limits : Limits) (room : Nat) : Nat → Text → Except Flaw (List Value × Text)
  | 0, _ => .error .malformed
  | fuel + 1, t => do
    let (v, t) ← valueWithin limits room fuel t
    let t ← skipFiller t
    match t with
    | ']' :: t => return ([v], t)
    | ',' :: t =>
      let t ← skipFiller t
      match t with
      | ']' :: t => return ([v], t)
      | t =>
        let (more, t) ← itemsWithin limits room fuel t
        return (v :: more, t)
    | _ => .error .malformed

/-- The entries of a table between braces, up to its end, after those already read. -/
def entriesWithin (limits : Limits) (room : Nat) :
    Nat → Entries → Text → Except Flaw (Entries × Text)
  | 0, _, _ => .error .malformed
  | fuel + 1, entries, t => do
    let (path, t) ← keyOfEntry t
    let (v, t) ← valueWithin limits room fuel t
    match insert? 0 v entries path with
    | none => .error .malformed
    | some entries =>
      match skipGaps t with
      | '\x7d' :: t => return (entries, t)
      | ',' :: t => entriesWithin limits room fuel entries (skipGaps t)
      | _ => .error .malformed

end

/-- A value. -/
def value (limits : Limits) (t : Text) : Except Flaw (Value × Text) :=
  valueWithin limits limits.room (2 * t.length + 2) t

/-! ## Statements -/

/-- A document that has been read up to some statement: its tree, the table of the last header, and
the number of headers. -/
structure Draft where
  entries : Entries
  header : List Text
  part : Nat

/-- The reading of a header: the key and the brackets that close it. -/
def header (t closing : Text) : Except Flaw (List Text × Text) := do
  let (path, t) ← key (skipGaps t)
  if closing.isPrefixOf t then return (path, t.drop closing.length) else .error .malformed

/-- A tree that a statement has changed; a statement without effect is refused. -/
def accepted (entries : Option Entries) : Except Flaw Entries :=
  match entries with
  | none => .error .malformed
  | some entries => .ok entries

/-- One statement at the start of a text, or none where a comment begins. -/
def statement (limits : Limits) (d : Draft) (t : Text) : Except Flaw (Draft × Text) := do
  match t with
  | '#' :: _ => return (d, t)
  | '[' :: '[' :: t =>
    let (path, t) ← header t [']', ']']
    return (⟨← accepted (declareElement? d.entries path), path, d.part + 1⟩, t)
  | '[' :: t =>
    let (path, t) ← header t [']']
    return (⟨← accepted (declareTable? d.entries path), path, d.part + 1⟩, t)
  | t =>
    let (path, t) ← keyOfEntry t
    let (v, t) ← value limits t
    return ({ d with entries := ← accepted (insertUnder? d.part v path d.entries d.header) }, t)

/-- The statements of a text after those already read. -/
def statements (limits : Limits) : Nat → Draft → Text → Except Flaw Entries
  | 0, _, _ => .error .malformed
  | fuel + 1, d, t => do
    match skipGaps t with
    | [] => return d.entries
    | '\n' :: t => statements limits fuel d t
    | t =>
      let (d, t) ← statement limits d t
      let t ← skipComment (skipGaps t)
      match t with
      | [] => return d.entries
      | '\n' :: t => statements limits fuel d t
      | _ => .error .malformed

/-- A text with a line feed for every pair of a carriage return and a line feed. -/
def joinLineEnds : Text → Text
  | [] => []
  | '\r' :: '\n' :: t => '\n' :: joinLineEnds t
  | c :: t => c :: joinLineEnds t

/-- The table of a whole file. -/
def parse (limits : Limits) (source : Text) : Except Flaw Value := do
  let t := joinLineEnds source
  let entries ← statements limits (t.length + 1) ⟨[], [], 0⟩ t
  return .table (entryValues entries)

end Manpage.Config
