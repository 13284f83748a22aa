import Manpage.Text.Basic

/-!
# Chunks of a line

A line falls into chunks: maximal runs of characters that are not blanks, and maximal runs of one
repeated blank. A tab and a space, say, never share a chunk. Macro arguments, words and columns
rest on these boundaries.

## Main definitions

* `Manpage.sameChunk` — whether two neighbouring characters belong to one chunk.
* `Manpage.Chunk` — a chunk with its distance from the start of the line.
* `Manpage.Chunk.ofLine` — the chunks of a line.
* `Manpage.isComment` — whether a chunk at the start of a line makes the line a comment.
-/

namespace Manpage

/-- Two neighbouring characters belong to one chunk if neither is a blank or both are the same. -/
def sameChunk (c d : Char) : Bool :=
  c == d || (!isSpace c && !isSpace d)

/-- A chunk of a line with its distance from the start of the line. -/
structure Chunk where
  offset : Nat
  text : Text
deriving DecidableEq

namespace Chunk

/-- Texts set side by side, the first at the given offset. -/
def place (offset : Nat) : List Text → List Chunk
  | [] => []
  | t :: more => ⟨offset, t⟩ :: place (offset + t.length) more

/-- The chunks of a line. -/
def ofLine (line : Text) : List Chunk :=
  place 0 (line.splitBy sameChunk)

end Chunk

/-- What a comment line begins with, a lone point apart. -/
def commentLeaders : List Text :=
  [['\\', '"'], ['.', '\\', '"'], ['\'', '\\', '"'], ['\\', '#']]

/-- A chunk at the start of a line makes the line a comment if it is a lone point or begins with
one of the comment leaders. -/
def isComment (chunk : Text) : Bool :=
  chunk == ['.'] || commentLeaders.any (·.isPrefixOf chunk)

end Manpage
