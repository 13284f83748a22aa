import Manpage.Proofs.Config.Hexadecimal

/-!
# Reading quoted texts

A quoted text can be read back, one character at a time: the character behind a backslash says in
what form a character is written, and so how far that form extends. So no two texts have the same
quoted form, whatever stands behind it. A quoted text holds no line end, since every line end is
unprintable.

## Main definitions

* `Manpage.Text.readChar?` — the character at the start of a text between quotes.

## Main results

* `Manpage.Text.readChar?_escapeChar` — a character is read back, with anything behind it.
* `Manpage.Text.quoted_injective` — different texts have different quoted forms.
* `Manpage.Text.isLineEnd_of_mem_quoted` — a quoted text has no line end.
-/

namespace Manpage.Text

variable {quote c d : Char} {s t rest : Text} {width n : Nat}

/-! ## Hexadecimal numerals -/

/-- A numeral that is not too large for a width has just that width. -/
theorem length_hex (hwidth : 0 < width) (hn : n < 16 ^ width) : (hex width n).length = width := by
  have hlength := (Nat.length_toDigits_le_iff (by decide) hwidth).mpr hn
  simp only [hex, List.length_append, List.length_replicate]
  omega

/-- A hexadecimal numeral has nothing in it but the sixteen digits. By strong induction on the
number, which is divided by sixteen for each digit. -/
theorem exists_digit_of_mem_toDigits (h : c ∈ Nat.toDigits 16 n) :
    ∃ digit < 16, c = Nat.digitChar digit := by
  induction n using Nat.strong_induction_on with
  | _ n ih =>
    rw [Nat.toDigits_eq_if (by decide)] at h
    split at h
    · rename_i hn
      exact ⟨n, hn, List.mem_singleton.mp h⟩
    · rcases List.mem_append.mp h with h | h
      · exact ih (n / 16) (by omega) h
      · exact ⟨n % 16, Nat.mod_lt n (by decide), List.mem_singleton.mp h⟩

/-- No digit ends a line. -/
theorem isLineEnd_digitChar : ∀ n < 16, isLineEnd (Nat.digitChar n) = false := by
  decide

/-- A hexadecimal numeral holds no line end, whatever the width that it is filled up to. -/
theorem isLineEnd_of_mem_hex (h : c ∈ hex width n) : isLineEnd c = false := by
  rcases List.mem_append.mp h with h | h
  · obtain rfl := List.eq_of_mem_replicate h
    rfl
  · obtain ⟨digit, hdigit, rfl⟩ := exists_digit_of_mem_toDigits h
    exact isLineEnd_digitChar digit hdigit

/-! ## One character -/

/-- The character at the start of a text between quotes, and the rest of that text. -/
def readChar? : Text → Option (Char × Text)
  | [] => none
  | ['\\'] => none
  | '\\' :: 't' :: u => some ('\t', u)
  | '\\' :: 'n' :: u => some ('\n', u)
  | '\\' :: 'r' :: u => some ('\r', u)
  | '\\' :: 'x' :: u => some (Char.ofNat (Config.ofDigits 16 (u.take 2)), u.drop 2)
  | '\\' :: 'u' :: u => some (Char.ofNat (Config.ofDigits 16 (u.take 4)), u.drop 4)
  | '\\' :: 'U' :: u => some (Char.ofNat (Config.ofDigits 16 (u.take 8)), u.drop 8)
  | '\\' :: c :: u => some (c, u)
  | c :: u => some (c, u)

/-- A character that is none of the marks is read as itself. -/
theorem readChar?_cons (hc : c ≠ '\\') (rest : Text) : readChar? (c :: rest) = some (c, rest) := by
  unfold readChar?
  split <;> simp_all

/-- No code point needs more than eight hexadecimal digits. -/
theorem toNat_lt (c : Char) : c.toNat < 16 ^ 8 := by
  have hvalid : c.toNat < 0xd800 ∨ 0xdfff < c.toNat ∧ c.toNat < 0x110000 := c.valid
  omega

/-- A character that is written by its code point is read back from the digits. -/
theorem ofNat_take_hex (width : Nat) (hwidth : 0 < width) (hc : c.toNat < 16 ^ width)
    (rest : Text) :
    Char.ofNat (Config.ofDigits 16 ((hex width c.toNat ++ rest).take width)) = c ∧
      (hex width c.toNat ++ rest).drop width = rest := by
  have hlength := length_hex hwidth hc
  rw [List.take_left' hlength, List.drop_left' hlength, Config.ofDigits_hex]
  exact ⟨Char.ofNat_toNat c, rfl⟩

/-- **A character is read back**, with anything behind it.

**Proof sketch.** One case for each form that a character is written in. A numeral is just as wide
as its form says, since no code point needs more than eight digits. -/
theorem readChar?_escapeChar (hquote : quote = '\'' ∨ quote = '"') (c : Char) (rest : Text) :
    readChar? (escapeChar quote c ++ rest) = some (c, rest) := by
  unfold escapeChar
  split
  · rename_i hc
    -- quotes and backslashes are escaped by a backslash
    have hc : c = '\'' ∨ c = '"' ∨ c = '\\' := by
      simp only [Bool.or_eq_true, beq_iff_eq] at hc
      rcases hc with rfl | rfl
      · exact hquote.imp_right Or.inl
      · exact Or.inr (Or.inr rfl)
    rcases hc with rfl | rfl | rfl <;> rfl
  · rename_i hc
    have hc : c ≠ '\\' := fun heq => hc (by simp [heq])
    split
    · rename_i htab
      obtain rfl := eq_of_beq htab
      rfl
    · split
      · rename_i hnewline
        obtain rfl := eq_of_beq hnewline
        rfl
      · split
        · rename_i hreturn
          obtain rfl := eq_of_beq hreturn
          rfl
        · split
          · exact readChar?_cons hc rest
          · split
            · rename_i hsmall
              -- what cannot be printed is written by its number, in two, four or eight digits
              obtain ⟨hread, hrest⟩ := ofNat_take_hex 2 (by decide) hsmall rest
              simp only [List.cons_append, readChar?, hread, hrest]
            · split
              · rename_i hsmall
                obtain ⟨hread, hrest⟩ := ofNat_take_hex 4 (by decide) hsmall rest
                simp only [List.cons_append, readChar?, hread, hrest]
              · obtain ⟨hread, hrest⟩ := ofNat_take_hex 8 (by decide) (toNat_lt c) rest
                simp only [List.cons_append, readChar?, hread, hrest]

/-! ## Quoted texts -/

/-- A text stands between apostrophes or between quotes. -/
theorem quoteFor_cases (t : Text) : quoteFor t = '\'' ∨ quoteFor t = '"' := by
  unfold quoteFor
  split
  · exact Or.inr rfl
  · exact Or.inl rfl

/-- Between the same quotes, different texts are written differently.

**Proof sketch.** By induction on the first text. What is written for a character is read back as
this character with the rest unread, so that both texts begin with the same character and their
rests are written alike. -/
theorem flatMap_escapeChar_injective (hquote : quote = '\'' ∨ quote = '"')
    (h : s.flatMap (escapeChar quote) = t.flatMap (escapeChar quote)) : s = t := by
  induction s generalizing t with
  | nil =>
    cases t with
    | nil => rfl
    | cons d t =>
      have hread := readChar?_escapeChar hquote d (t.flatMap (escapeChar quote))
      rw [← List.flatMap_cons, ← h] at hread
      exact absurd hread (by simp [readChar?])
  | cons c s ih =>
    have hread := readChar?_escapeChar hquote c (s.flatMap (escapeChar quote))
    rw [← List.flatMap_cons, h] at hread
    cases t with
    | nil => exact absurd hread (by simp [readChar?])
    | cons d t =>
      rw [List.flatMap_cons, readChar?_escapeChar hquote] at hread
      obtain ⟨rfl, hrest⟩ := Prod.mk.inj (Option.some.inj hread)
      rw [ih hrest.symm]

/-- **Different texts have different quoted forms.** -/
theorem quoted_injective : Function.Injective quoted := by
  intro s t h
  obtain ⟨hquote, h⟩ := List.cons.inj h
  rw [← hquote] at h
  exact flatMap_escapeChar_injective (quoteFor_cases s) (List.append_cancel_right h)

/-! ## Line ends -/

/-- Every line end is unprintable. The line ends are ten characters, and each is in the table of
unprintable ones. -/
theorem isPrintable_of_isLineEnd (h : isLineEnd c = true) : isPrintable c = false := by
  have hc : c.toNat ∈ [10, 11, 12, 13, 28, 29, 30, 0x85, 0x2028, 0x2029] := by
    simp only [isLineEnd, Bool.or_eq_true, Bool.and_eq_true, decide_eq_true_eq, beq_iff_eq] at h
    simp only [List.mem_cons, List.not_mem_nil, or_false]
    omega
  have hall : ∀ n ∈ [10, 11, 12, 13, 28, 29, 30, 0x85, 0x2028, 0x2029],
      inRanges unprintableRanges n = true := by
    decide +kernel
  rw [isPrintable, hall _ hc]
  rfl

/-- A character holds no line end as it is written in a quoted text. If it is one itself it is
unprintable, and a numeral is written for it.

**Proof sketch.** By cases on what is written: a backslash and a mark, the character itself where it
is printable, or a numeral behind a mark. None of the marks and digits ends a line. -/
theorem isLineEnd_of_mem_escapeChar (hquote : quote = '\'' ∨ quote = '"')
    (h : c ∈ escapeChar quote d) : isLineEnd c = false := by
  have hnumeral : ∀ {mark : Char} {width : Nat}, isLineEnd mark = false →
      c ∈ '\\' :: mark :: hex width d.toNat → isLineEnd c = false := by
    intro mark width hmark hc
    rcases List.mem_cons.mp hc with rfl | hc
    · rfl
    · rcases List.mem_cons.mp hc with rfl | hc
      · exact hmark
      · exact isLineEnd_of_mem_hex hc
  have hpair : ∀ {mark : Char}, isLineEnd mark = false → c ∈ ['\\', mark] →
      isLineEnd c = false := by
    intro mark hmark hc
    simp only [List.mem_cons, List.not_mem_nil, or_false] at hc
    rcases hc with rfl | rfl
    · rfl
    · exact hmark
  unfold escapeChar at h
  split at h
  · rename_i hd
    simp only [Bool.or_eq_true, beq_iff_eq] at hd
    refine hpair ?_ h
    rcases hd with rfl | rfl
    · rcases hquote with rfl | rfl <;> rfl
    · rfl
  · split at h
    · exact hpair rfl h
    · split at h
      · exact hpair rfl h
      · split at h
        · exact hpair rfl h
        · split at h
          · rename_i hprintable
            obtain rfl := List.mem_singleton.mp h
            -- a line end is not printable, so it is never written as it is
            by_contra hend
            rw [isPrintable_of_isLineEnd (by simpa using hend)] at hprintable
            exact Bool.noConfusion hprintable
          · split at h
            · exact hnumeral rfl h
            · split at h
              · exact hnumeral rfl h
              · exact hnumeral rfl h

/-- **A quoted text has no line end.** The quotes are none, and each character between them is
written by characters that are none. -/
theorem isLineEnd_of_mem_quoted (h : c ∈ quoted t) : isLineEnd c = false := by
  have hquote : isLineEnd (quoteFor t) = false := by
    rcases quoteFor_cases t with heq | heq <;> rw [heq] <;> rfl
  rw [quoted, List.cons_append, List.mem_cons, List.mem_append, List.mem_singleton] at h
  rcases h with rfl | h | rfl
  · exact hquote
  · obtain ⟨d, -, hc⟩ := List.mem_flatMap.mp h
    exact isLineEnd_of_mem_escapeChar (quoteFor_cases t) hc
  · exact hquote

end Manpage.Text
