import Manpage.Text.Basic

/-!
# Paths

A path is written as names with slashes between them. Empty names and single points say nothing and
are left out; two points stay, since only the files themselves say where they lead.

## Main definitions

* `Manpage.Path` — a path, with `Manpage.Path.ofText` and `Manpage.Path.text`.
* `Manpage.Path.parent`, `Manpage.Path.child` — the directory of a path, and a file in it.
-/

namespace Manpage

/-- A path: the slashes that it begins with, and its names. -/
structure Path where
  root : Text
  names : List Text
deriving DecidableEq

namespace Path

/-- The path of the current directory. -/
def here : Path :=
  ⟨[], []⟩

/-- The stretches of a text between slashes. -/
def splitSlashes : Text → List Text
  | [] => [[]]
  | c :: t =>
    if c == '/' then [] :: splitSlashes t
    else
      match splitSlashes t with
      | [] => [[c]]
      | name :: more => (c :: name) :: more

/-- The root of a path: one slash, or two where exactly two begin the text. -/
def rootOf : Text → Text
  | '/' :: '/' :: '/' :: _ => ['/']
  | '/' :: '/' :: _ => ['/', '/']
  | '/' :: _ => ['/']
  | _ => []

/-- The path that a text denotes. -/
def ofText (t : Text) : Path :=
  ⟨rootOf t, (splitSlashes t).filter fun name => name != [] && name != ['.']⟩

/-- The text of a path; that of the current directory is a point. -/
def text (p : Path) : Text :=
  if p.root.isEmpty && p.names.isEmpty then ['.'] else p.root ++ Text.join ['/'] p.names

/-- The directory of a path. -/
def parent (p : Path) : Path :=
  { p with names := p.names.dropLast }

/-- A file in the directory of a path. -/
def child (p : Path) (name : Text) : Path :=
  { p with names := p.names ++ [name] }

end Path

end Manpage
