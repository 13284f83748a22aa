import Manpage.Machine.Basic
import Manpage.Token.Source

/-!
# Rendering

A source as terminal text: its tokens interpreted on an empty page.

## Main definitions

* `Manpage.interpretSource` — a source interpreted for a section and a line width.
* `Manpage.render` — the text of a source, or the fault that it has.
-/

namespace Manpage

/-- A source interpreted for a section, if one is asked for, and a line width. -/
def interpretSource (source : Text) (requested : Option Section) (width : Int) : Outcome :=
  (Machine.fresh (Page.ofWidth width) requested).interpret (Token.ofSource source)

/-- The text of a source, or the fault that it has. -/
def render (source : Text) (requested : Option Section) (width : Int) : Except Fault Text :=
  let o := interpretSource source requested width
  match o.fault with
  | some cause => .error cause
  | none => .ok o.machine.page.text

end Manpage
