import Manpage.Text.Basic

/-!
# Sections

A manual page has sections, and a reader may ask for one of them. A title names a section only by
its exact upper-case name; a request is freer, outer blanks and letter case apart.

## Main definitions

* `Manpage.Section` — the sections that can be asked for.
* `Manpage.Section.ofTitle` — the section of a title.
* `Manpage.Section.ofRequest` — the section that a reader asks for.
-/

namespace Manpage

/-- The sections that can be asked for; any other title is unknown. -/
inductive Section where
  | unknown
  | name
  | synopsis
  | description
  | options
deriving DecidableEq

namespace Section

/-- The title of a section. -/
def title : Section → Text
  | unknown => "UNKNOWN"
  | name => "NAME"
  | synopsis => "SYNOPSIS"
  | description => "DESCRIPTION"
  | options => "OPTIONS"

/-- Every section, in the order of the declaration. -/
def all : List Section :=
  [unknown, name, synopsis, description, options]

/-- The section of a title; a title that is no section's is unknown. -/
def ofTitle (t : Text) : Section :=
  (all.find? (·.title == t)).getD unknown

/-- The title of a section leads back to the section, since no two sections share a title. -/
theorem ofTitle_title (s : Section) : ofTitle s.title = s := by
  cases s <;> decide

/-- The capital of a letter. Of all characters outside ASCII, only the dotless i and the long s
have a capital that occurs in a title, so all others stay as they are. -/
def capital (c : Char) : Char :=
  if c.toNat == 0x131 then 'I'
  else if c.toNat == 0x17f then 'S'
  else c.toUpper

/-- The section that a reader asks for: outer blanks and letter case do not count. -/
def ofRequest (request : Text) : Section :=
  ofTitle (request.strip.map capital)

end Section

end Manpage
