import Manpage.Token.Chunk
import Manpage.Token.Lexeme

/-!
# Tokens of a source

A source is read line by line. A line of blanks gives one token, a comment line gives none, and
any other line gives the tokens of its chunks, which spell out the line. A chunk at the start of a
line that begins with a point is a macro name and is not divided further.

## Main definitions

* `Manpage.Token.ofChunk` — the tokens of one chunk.
* `Manpage.Token.ofLine` — the tokens of one line.
* `Manpage.Token.ofSource` — the tokens of a source.
-/

namespace Manpage.Token

/-- Lexemes as tokens of one line, side by side from a column on. Only the first can start the
line. -/
def place (startsLine : Bool) (line column : Int) : List Lexeme → List Token
  | [] => []
  | x :: more =>
    ⟨x.kind, x.value, startsLine, line, column⟩ ::
      place false line (column + x.value.length) more

/-- The lexemes of a chunk. At the start of a line, a chunk that begins with a point is a macro
name; a chunk that begins with a blank is one token anywhere. -/
def lexemes (startsLine : Bool) (chunk : Text) : List Lexeme :=
  match chunk with
  | [] => []
  | c :: _ =>
    if startsLine && c == '.' then [⟨.macroName, chunk⟩]
    else if isSpace c then [⟨.blank, chunk⟩]
    else Lexeme.ofChunk chunk

/-- The tokens of one chunk. -/
def ofChunk (chunk : Text) (startsLine : Bool) (line column : Int) : List Token :=
  place startsLine line column (lexemes startsLine chunk)

/-- The tokens of the line with a given number. -/
def ofLine (number : Nat) (line : Text) : List Token :=
  if line.isBlank then [⟨.emptyLine, [], true, number, 1⟩]
  else
    match Chunk.ofLine line with
    | [] => []
    | first :: more =>
      if isComment first.text then []
      else
        ofChunk first.text true number (first.offset + 1) ++
          more.flatMap fun chunk => ofChunk chunk.text false number (chunk.offset + 1)

/-- The tokens of lines numbered from a given number on. -/
def ofLines (number : Nat) : List Text → List Token
  | [] => []
  | line :: more => ofLine number line ++ ofLines (number + 1) more

/-- The tokens of a source. -/
def ofSource (source : Text) : List Token :=
  ofLines 1 source.splitLines

end Manpage.Token
