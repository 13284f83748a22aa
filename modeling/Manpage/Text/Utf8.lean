import Manpage.Text.Basic

/-!
# UTF-8

Bytes as a text. A lead byte says how many bytes follow and which values the first of them can have,
so that no character has two encodings and no surrogate has one. Where the bytes break these rules,
the longest stretch that could begin a character is a flaw: it is either reported or replaced.

Line ends in a text that is read are line feeds, however they were written.

## Main definitions

* `Manpage.Utf8.Symbol` — a character, or a flaw with its position and length.
* `Manpage.Utf8.symbols` — the characters and flaws of a list of bytes.
* `Manpage.Utf8.decode` — the text, or the first flaw.
* `Manpage.Utf8.decodeLossy` — the text with a replacement character for every flaw.
* `Manpage.Utf8.size` — the number of bytes that a text takes.
* `Manpage.Text.withLineFeeds` — a text with line feeds as line ends.
-/

namespace Manpage

namespace Utf8

/-- Why bytes are not a character. -/
inductive Cause where
  /-- the byte begins no character -/
  | start
  /-- a byte that cannot follow comes next -/
  | continuation
  /-- the bytes end -/
  | truncated
deriving DecidableEq

/-- Bytes that are not a character. -/
structure Flaw where
  cause : Cause
  first : UInt8
  position : Nat
  length : Nat
deriving DecidableEq

/-- A character, or bytes that are none. -/
inductive Symbol where
  | char (c : Char)
  | flaw (f : Flaw)
deriving DecidableEq

/-- The ranges of the bytes that follow a lead byte, and the bits that the lead byte
contributes. -/
def lead? (b : UInt8) : Option (List (Nat × Nat) × Nat) :=
  let n := b.toNat
  let any := (0x80, 0xbf)
  if n < 0x80 then some ([], n)
  else if n < 0xc2 then none
  else if n < 0xe0 then some ([any], n - 0xc0)
  else if n = 0xe0 then some ([(0xa0, 0xbf), any], 0)
  else if n = 0xed then some ([(0x80, 0x9f), any], n - 0xe0)
  else if n < 0xf0 then some ([any, any], n - 0xe0)
  else if n = 0xf0 then some ([(0x90, 0xbf), any, any], 0)
  else if n < 0xf4 then some ([any, any, any], n - 0xf0)
  else if n = 0xf4 then some ([(0x80, 0x8f), any, any], n - 0xf0)
  else none

/-- A character that is begun: its lead byte and where that stands, the ranges of the bytes still to
come, and the bits and the number of the bytes so far. -/
structure Pending where
  first : UInt8
  position : Nat
  ranges : List (Nat × Nat)
  bits : Nat
  length : Nat
deriving DecidableEq

/-- A character begun by a byte: complete, still to be continued, or none. -/
def begin (position : Nat) (b : UInt8) : List Symbol × Option Pending :=
  match lead? b with
  | none => ([.flaw ⟨.start, b, position, 1⟩], none)
  | some ([], bits) => ([.char (Char.ofNat bits)], none)
  | some (ranges@(_ :: _), bits) => ([], some ⟨b, position, ranges, bits, 1⟩)

/-- One byte more, at a position. -/
def next (pending : Option Pending) (position : Nat) (b : UInt8) : List Symbol × Option Pending :=
  match pending with
  | none => begin position b
  | some p =>
    match p.ranges with
    | [] => begin position b
    | (low, high) :: more =>
      if low ≤ b.toNat && b.toNat ≤ high then
        let bits := 64 * p.bits + (b.toNat - 0x80)
        if more.isEmpty then ([.char (Char.ofNat bits)], none)
        else ([], some { p with ranges := more, bits := bits, length := p.length + 1 })
      else
        let (symbols, pending) := begin position b
        (.flaw ⟨.continuation, p.first, p.position, p.length⟩ :: symbols, pending)

/-- The characters and flaws of the bytes from a position on, when a character may be begun. -/
def symbolsFrom (pending : Option Pending) (position : Nat) : List UInt8 → List Symbol
  | [] =>
    match pending with
    | none => []
    | some p => [.flaw ⟨.truncated, p.first, p.position, p.length⟩]
  | b :: bytes =>
    let (symbols, pending) := next pending position b
    symbols ++ symbolsFrom pending (position + 1) bytes

/-- The characters and flaws of a list of bytes. -/
def symbols (bytes : List UInt8) : List Symbol :=
  symbolsFrom none 0 bytes

/-- The text of characters, or the first flaw among them. -/
def textOf : List Symbol → Except Flaw Text
  | [] => .ok []
  | .char c :: more => (textOf more).map (c :: ·)
  | .flaw f :: _ => .error f

/-- The text of a list of bytes, or its first flaw. -/
def decode (bytes : List UInt8) : Except Flaw Text :=
  textOf (symbols bytes)

/-- The character that stands for a flaw. -/
def replacement : Char :=
  '\ufffd'

/-- The text of a list of bytes, with a replacement character for every flaw. -/
def decodeLossy (bytes : List UInt8) : Text :=
  (symbols bytes).map fun
    | .char c => c
    | .flaw _ => replacement

/-- The number of bytes that a text takes. -/
def size (t : Text) : Nat :=
  t.foldr (fun c n => c.utf8Size + n) 0

end Utf8

/-- A text with a line feed for every carriage return and for every pair of a carriage return and a
line feed. -/
def Text.withLineFeeds : Text → Text
  | [] => []
  | '\r' :: '\n' :: t => '\n' :: withLineFeeds t
  | '\r' :: t => '\n' :: withLineFeeds t
  | c :: t => c :: withLineFeeds t

end Manpage
