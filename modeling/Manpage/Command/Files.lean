import Manpage.Command.Path
import Manpage.Text.Quoted
import Manpage.Text.Utf8

/-!
# Files

Files and directories below a working directory, as a value. What a path leads to is found name by
name: every name but the last has to be that of a directory. Outside the working directory little is
known: there are the directories above it, a few that every system has, and the null device. What is
written there is out of sight.

## Main definitions

* `Manpage.FileError` — why a file cannot be read or written, with its message.
* `Manpage.Place` — where a path leads.
* `Manpage.Tree` — files and directories.
* `Manpage.Tree.read`, `Manpage.Tree.write` — a file read and written.
-/

namespace Manpage

/-! ## Errors -/

/-- Why a file cannot be read or written. -/
inductive FileError where
  | absent
  | denied
  | notDirectory
  | isDirectory
  | nameTooLong
  /-- the path holds the null character and so names no file at all -/
  | nullCharacter
deriving DecidableEq

namespace FileError

/-- What is said of a file that cannot be read or written. -/
def message (e : FileError) (path : Text) : Text :=
  match e with
  | absent => "[Errno 2] No such file or directory: ".toList ++ path.quoted
  | denied => "[Errno 13] Permission denied: ".toList ++ path.quoted
  | notDirectory => "[Errno 20] Not a directory: ".toList ++ path.quoted
  | isDirectory => "[Errno 21] Is a directory: ".toList ++ path.quoted
  | nameTooLong => "[Errno 36] File name too long: ".toList ++ path.quoted
  | nullCharacter => "embedded null byte"

/-- The error says that there is no file of that name. -/
def meansNoFile : FileError → Bool
  | absent | notDirectory | isDirectory | nullCharacter => true
  | denied | nameTooLong => false

end FileError

/-! ## Places -/

/-- The most bytes of a name. -/
def maxNameSize : Nat :=
  255

/-- The most bytes of a path. -/
def maxPathSize : Nat :=
  4095

/-- What is wrong with the text of a path, wherever it leads. -/
def Path.flaw? (p : Path) : Option FileError :=
  if p.text.contains '\x00' then some .nullCharacter
  else if maxPathSize < Utf8.size p.text then some .nameTooLong
  else none

/-- Where the names of a place are counted from. -/
inductive Base where
  /-- the working directory -/
  | here
  /-- some directory above the working directory -/
  | above
  /-- the root of all files -/
  | root
deriving DecidableEq

/-- Where a path leads: the names from a base on. -/
structure Place where
  base : Base
  names : List Text
deriving DecidableEq

namespace Place

/-- The place of the directory that two points stand for. The root lies above itself. -/
def parent (p : Place) : Place :=
  match p.base, p.names with
  | .here, [] => ⟨.above, []⟩
  | base, names => ⟨base, names.dropLast⟩

/-- The place of a name in a directory. -/
def child (p : Place) (name : Text) : Place :=
  { p with names := p.names ++ [name] }

end Place

/-- The directories that every system has. -/
def systemDirectories : List (List Text) :=
  [[], [['d', 'e', 'v']], [['t', 'm', 'p']]]

/-- The device that holds nothing and keeps nothing. -/
def nullDevice : List Text :=
  [['d', 'e', 'v'], ['n', 'u', 'l', 'l']]

/-! ## Trees -/

/-- Files with their contents, and directories, by the names that lead to them from the working
directory. -/
structure Tree where
  directories : List (List Text)
  files : List (List Text × List UInt8)
deriving DecidableEq

namespace Tree

/-- A directory. In the tree, these are the working directory, those that are listed, and those that
something else lies in. -/
def isDirectory (t : Tree) (place : Place) : Bool :=
  match place.base with
  | .here =>
    place.names == [] || t.directories.any (place.names.isPrefixOf ·)
      || t.files.any fun f => f.1 != place.names && place.names.isPrefixOf f.1
  | .above => place.names == []
  | .root => systemDirectories.contains place.names

/-- The contents of a file. -/
def contents? (t : Tree) (place : Place) : Option (List UInt8) :=
  match place.base with
  | .here => t.files.lookup place.names
  | .above => none
  | .root => if place.names == nullDevice then some [] else none

/-- The place that names lead to from a given one. -/
def locate (t : Tree) (place : Place) : List Text → Except FileError Place
  | [] => .ok place
  | name :: more =>
    if !t.isDirectory place then
      .error (if (t.contents? place).isSome then .notDirectory else .absent)
    else if maxNameSize < Utf8.size name then .error .nameTooLong
    else if name == ['.', '.'] then t.locate place.parent more
    else t.locate (place.child name) more

/-- The place that a path leads to. -/
def placeOf (t : Tree) (p : Path) : Except FileError Place :=
  match p.flaw? with
  | some e => .error e
  | none => t.locate ⟨if p.root.isEmpty then .here else .root, []⟩ p.names

/-- A file read. -/
def read (t : Tree) (p : Path) : Except FileError (List UInt8) := do
  let place ← t.placeOf p
  if t.isDirectory place then .error .isDirectory
  else
    match t.contents? place with
    | some bytes => return bytes
    | none => .error .absent

/-- A list of files with one of them replaced, or added. -/
def putFile (names : List Text) (bytes : List UInt8) :
    List (List Text × List UInt8) → List (List Text × List UInt8)
  | [] => [(names, bytes)]
  | f :: more => if f.1 == names then (names, bytes) :: more else f :: putFile names bytes more

/-- A file put at a place; outside the working directory it is out of sight. -/
def put (t : Tree) (place : Place) (bytes : List UInt8) : Tree :=
  match place.base with
  | .here => { t with files := putFile place.names bytes t.files }
  | .above | .root => t

/-- A file written. -/
def write (t : Tree) (p : Path) (bytes : List UInt8) : Except FileError Tree := do
  let place ← t.placeOf p
  if t.isDirectory place then .error .isDirectory else return t.put place bytes

end Tree

end Manpage
