import Manpage.Text.Utf8
import Mathlib.Tactic.SplitIfs

/-!
# Texts as bytes

The bytes of a text are those of its characters, one after the other. They are read back as the
text, and no flaw is found in them.

## Main definitions

* `Manpage.Utf8.encode` — the bytes of a text.

## Main results

* `Manpage.Utf8.decode_encode` — the bytes of a text are read back as the text.
-/

namespace Manpage.Utf8

/-- The bytes of a text. -/
def encode (t : Text) : List UInt8 :=
  t.flatMap String.utf8EncodeChar

/-- The empty text has no bytes. -/
@[simp] theorem encode_nil : encode [] = [] :=
  rfl

/-- The bytes of a text are those of its first character and those of the others. -/
@[simp] theorem encode_cons (c : Char) (t : Text) :
    encode (c :: t) = String.utf8EncodeChar c ++ encode t :=
  rfl

variable {position n : Nat} {rest : List UInt8}

/-- A byte that a character is continued by, and that does not end it. It adds six bits, and the
next one has to be in the next range. -/
theorem symbolsFrom_continue {p : Pending} {low high : Nat} {range : Nat × Nat}
    {more : List (Nat × Nat)} (hp : p.ranges = (low, high) :: range :: more) (hlow : low ≤ n)
    (hhigh : n ≤ high) (hn : n < 256) :
    symbolsFrom (some p) position (UInt8.ofNat n :: rest) =
      symbolsFrom (some { p with
        ranges := range :: more, bits := 64 * p.bits + (n - 0x80), length := p.length + 1 })
        (position + 1) rest := by
  have hbyte : (UInt8.ofNat n).toNat = n := by simp [Nat.mod_eq_of_lt hn]
  simp [symbolsFrom, next, hp, hbyte, hlow, hhigh]

/-- The last byte of a character. -/
theorem symbolsFrom_finish {p : Pending} {low high : Nat} (hp : p.ranges = [(low, high)])
    (hlow : low ≤ n) (hhigh : n ≤ high) (hn : n < 256) :
    symbolsFrom (some p) position (UInt8.ofNat n :: rest) =
      .char (Char.ofNat (64 * p.bits + (n - 0x80))) :: symbolsFrom none (position + 1) rest := by
  have hbyte : (UInt8.ofNat n).toNat = n := by simp [Nat.mod_eq_of_lt hn]
  simp [symbolsFrom, next, hp, hbyte, hlow, hhigh]

/-- A byte that a character of several bytes begins with. -/
theorem symbolsFrom_begin {range : Nat × Nat} {more : List (Nat × Nat)} {bits : Nat} {b : UInt8}
    (h : lead? b = some (range :: more, bits)) :
    symbolsFrom none position (b :: rest) =
      symbolsFrom (some ⟨b, position, range :: more, bits, 1⟩) (position + 1) rest := by
  simp [symbolsFrom, next, begin, h]

/-- A byte that is a character. -/
theorem lead?_one (h : n < 0x80) : lead? (UInt8.ofNat n) = some ([], n) := by
  have hbyte : (UInt8.ofNat n).toNat = n := by simp; omega
  grind [lead?]

/-- The first byte of two. The bytes 0xc0 and 0xc1 could only begin characters that are one byte. -/
theorem lead?_two (hlow : 0xc2 ≤ n) (hhigh : n < 0xe0) :
    lead? (UInt8.ofNat n) = some ([(0x80, 0xbf)], n - 0xc0) := by
  have hbyte : (UInt8.ofNat n).toNat = n := by simp; omega
  grind [lead?]

/-- The first byte of three. -/
theorem lead?_three (hlow : 0xe0 ≤ n) (hhigh : n < 0xf0) :
    lead? (UInt8.ofNat n) =
      some ([(if n = 0xe0 then 0xa0 else 0x80, if n = 0xed then 0x9f else 0xbf), (0x80, 0xbf)],
        n - 0xe0) := by
  have hbyte : (UInt8.ofNat n).toNat = n := by simp; omega
  grind [lead?]

/-- The first byte of four. -/
theorem lead?_four (hlow : 0xf0 ≤ n) (hhigh : n ≤ 0xf4) :
    lead? (UInt8.ofNat n) =
      some ([(if n = 0xf0 then 0x90 else 0x80, if n = 0xf4 then 0x8f else 0xbf), (0x80, 0xbf),
        (0x80, 0xbf)], n - 0xf0) := by
  have hbyte : (UInt8.ofNat n).toNat = n := by simp; omega
  grind [lead?]

/-- The bytes of a character are read as the character.

**Proof sketch.** By the number of bytes. The first byte says how many there are and within which
bounds the second lies, the others are continued one by one, and the bits that they carry make the
number of the character again. -/
theorem symbolsFrom_encodeChar (c : Char) :
    symbolsFrom none position (String.utf8EncodeChar c ++ rest) =
      .char c :: symbolsFrom none (position + (String.utf8EncodeChar c).length) rest := by
  obtain ⟨n, hn⟩ : ∃ n, c.val.toNat = n := ⟨_, rfl⟩
  have hvalid : n < 0xd800 ∨ 0xdfff < n ∧ n < 0x110000 := hn ▸ c.valid
  have hchar : Char.ofNat n = c := hn ▸ Char.ofNat_toNat c
  simp only [String.utf8EncodeChar, hn]
  -- by the number of bytes; the bounds on the second byte leave out the surrogates
  split_ifs with hone htwo hthree
  · have hlead := lead?_one (n := n) (by omega)
    simp [symbolsFrom, next, begin, hlead, hchar]
  · have hlead := lead?_two (n := n / 64 % 0x20 + 0xc0) (by omega) (by omega)
    rw [List.cons_append, symbolsFrom_begin hlead, List.cons_append,
      symbolsFrom_finish rfl (by omega) (by omega) (by omega)]
    have hbits : 64 * (n / 64 % 0x20 + 0xc0 - 0xc0) + (n % 0x40 + 0x80 - 0x80) = n := by omega
    simp only [hbits, hchar]
    rfl
  · have hlead := lead?_three (n := n / 4096 % 0x10 + 0xe0) (by omega) (by omega)
    rw [List.cons_append, symbolsFrom_begin hlead, List.cons_append,
      symbolsFrom_continue rfl (by split_ifs <;> omega) (by split_ifs <;> omega) (by omega),
      List.cons_append, symbolsFrom_finish rfl (by omega) (by omega) (by omega)]
    have hbits : 64 * (64 * (n / 4096 % 0x10 + 0xe0 - 0xe0) + (n / 64 % 0x40 + 0x80 - 0x80))
        + (n % 0x40 + 0x80 - 0x80) = n := by omega
    simp only [hbits, hchar]
    rfl
  · have hlead := lead?_four (n := n / 262144 % 0x08 + 0xf0) (by omega) (by omega)
    rw [List.cons_append, symbolsFrom_begin hlead, List.cons_append,
      symbolsFrom_continue rfl (by split_ifs <;> omega) (by split_ifs <;> omega) (by omega),
      List.cons_append, symbolsFrom_continue rfl (by omega) (by omega) (by omega),
      List.cons_append, symbolsFrom_finish rfl (by omega) (by omega) (by omega)]
    have hbits : 64 * (64 * (64 * (n / 262144 % 0x08 + 0xf0 - 0xf0)
        + (n / 4096 % 0x40 + 0x80 - 0x80)) + (n / 64 % 0x40 + 0x80 - 0x80))
        + (n % 0x40 + 0x80 - 0x80) = n := by omega
    simp only [hbits, hchar]
    rfl

/-- The bytes of a text are the characters of the text, wherever they stand. -/
theorem symbolsFrom_encode (t : Text) (position : Nat) :
    symbolsFrom none position (encode t) = t.map .char := by
  induction t generalizing position with
  | nil => rfl
  | cons c t ih => rw [encode_cons, symbolsFrom_encodeChar, ih, List.map_cons]

/-- The text of characters without a flaw. -/
theorem textOf_map_char (t : Text) : textOf (t.map .char) = .ok t := by
  induction t with
  | nil => rfl
  | cons c t ih => rw [List.map_cons, textOf, ih]; rfl

/-- **The bytes of a text are read back as the text.** -/
theorem decode_encode (t : Text) : decode (encode t) = .ok t := by
  rw [decode, symbols, symbolsFrom_encode, textOf_map_char]

end Manpage.Utf8
