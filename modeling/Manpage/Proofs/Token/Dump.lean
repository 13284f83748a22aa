import Manpage.Proofs.Number.Whole
import Manpage.Proofs.Text.Lines
import Manpage.Proofs.Text.Quoted
import Manpage.Token.Dump

/-!
# Dumps and traces of tokens

The fields of a line of a dump differ in width, yet each of them ends where it can be seen: numerals
and names hold neither a space nor a colon, and the value is quoted. So a dump has one line for each
token and tells everything about it. An entry of a trace tells all but the place.

## Main definitions

* `Manpage.Token.dumpRow` — a line of a dump without its end.

## Main results

* `Manpage.Text.ofInt_injective` — different integers have different numerals.
* `Manpage.Token.splitLines_dump` — the lines of a dump.
* `Manpage.Token.dumpRow_injective`, `Manpage.Token.traceEntry_eq_iff` — a token is got back from
  its line, and all but its place from its entry.
* `Manpage.Token.dump_and_trace_faithful` — dumps and traces show tokens as they are.
-/

namespace Manpage

namespace Text

variable {c : Char} {s t u v : Text} {width : Nat}

/-! ## Fields -/

/-- What stands before the first occurrence of a character, and what stands behind it. What stands
before it is what comes up to it, and so the rests are the same as well. -/
theorem append_cons_inj (hs : c ∉ s) (ht : c ∉ t) (h : s ++ c :: u = t ++ c :: v) :
    s = t ∧ u = v := by
  have hbefore : ∀ {s u : Text}, c ∉ s → (s ++ c :: u).takeWhile (· != c) = s := by
    intro s u hs
    have hne : ∀ d ∈ s, (d != c) = true := fun d hd => by
      simpa using fun heq : d = c => hs (heq ▸ hd)
    rw [List.takeWhile_append_of_pos hne]
    simp
  have hst : s = t := by rw [← hbefore hs (u := u), h, hbefore ht]
  subst hst
  exact ⟨rfl, (List.cons.inj (List.append_cancel_left h)).2⟩

/-- A field that is filled up on the right, with a space behind it. Neither field has a space in it,
so the first space ends it. -/
theorem padRight_append_inj (hs : ' ' ∉ s) (ht : ' ' ∉ t)
    (h : padRight width s ++ ' ' :: u = padRight width t ++ ' ' :: v) : s = t ∧ u = v := by
  -- the space may as well stand before the filling as behind it
  have hspace : ∀ (n : Nat) (w : Text), spaces n ++ ' ' :: w = ' ' :: (spaces n ++ w) := by
    intro n w
    rw [spaces, ← List.singleton_append, ← List.append_assoc, ← List.replicate_succ',
      List.replicate_succ, List.cons_append]
  simp only [padRight, List.append_assoc, hspace] at h
  obtain ⟨rfl, h⟩ := append_cons_inj hs ht h
  exact ⟨rfl, List.append_cancel_left h⟩

/-- A field that is filled up on the left. The field is what is left without the spaces at the
beginning. -/
theorem padLeft_inj (hs : ' ' ∉ s) (ht : ' ' ∉ t) (h : padLeft width s = padLeft width t) :
    s = t := by
  have hfield : ∀ {s : Text}, ' ' ∉ s → (padLeft width s).dropWhile (· == ' ') = s := by
    intro s hs
    rw [padLeft, List.dropWhile_append_of_pos]
    · cases s with
      | nil => rfl
      | cons c s =>
        have hc : c ≠ ' ' := fun heq => hs (by simp [heq])
        simp [hc]
    · intro c hc
      simpa using List.eq_of_mem_replicate hc
  rw [← hfield hs, h, hfield ht]

/-! ## Numerals -/

/-- The numeral of an integer holds digits, and a sign where the integer is negative. -/
theorem isDigit_or_eq_of_mem_ofInt {n : Int} (h : c ∈ ofInt n) : c.isDigit = true ∨ c = '-' := by
  cases n with
  | ofNat n => exact Or.inl (isDigit_of_mem_ofNat h)
  | negSucc n =>
    rcases List.mem_cons.mp h with rfl | h
    · exact Or.inr rfl
    · exact Or.inl (isDigit_of_mem_ofNat h)

/-- A character that is neither a digit nor a sign is not in a numeral. -/
theorem not_mem_ofInt {n : Int} (hdigit : c.isDigit = false) (hsign : c ≠ '-') : c ∉ ofInt n := by
  intro h
  rcases isDigit_or_eq_of_mem_ofInt h with hc | hc
  · rw [hdigit] at hc
    exact Bool.noConfusion hc
  · exact hsign hc

/-- A numeral holds no line end: its digits and its sign are none. -/
theorem isLineEnd_of_mem_ofInt {n : Int} (h : c ∈ ofInt n) : isLineEnd c = false := by
  rcases isDigit_or_eq_of_mem_ofInt h with hc | rfl
  · have hrow := toNat_of_isDigit hc
    simp only [isLineEnd, Bool.or_eq_false_iff, Bool.and_eq_false_iff, decide_eq_false_iff_not,
      beq_eq_false_iff_ne]
    omega
  · rfl

/-- Different natural numbers have different numerals, since a numeral can be read back. -/
theorem ofNat_injective : Function.Injective ofNat := by
  intro m n h
  have hvalue := congrArg (fun digits => Nat.ofDigitChars 10 digits 0) h
  simpa only [ofNat, Nat.ofDigitChars_ten_toDigits] using hvalue

/-- **Different integers have different numerals.** A minus sign tells the negative ones from the
others, and digits tell natural numbers apart. -/
theorem ofInt_injective : Function.Injective ofInt := by
  have hsign : ∀ n : Nat, '-' ∉ ofNat n := fun n h =>
    absurd (isDigit_of_mem_ofNat h) (by decide)
  intro m n h
  cases m with
  | ofNat m =>
    cases n with
    | ofNat n => rw [ofNat_injective h]
    | negSucc n =>
      change ofNat m = '-' :: _ at h
      exact absurd (h ▸ List.mem_cons_self) (hsign m)
  | negSucc m =>
    cases n with
    | ofNat n =>
      change '-' :: _ = ofNat n at h
      exact absurd (h ▸ List.mem_cons_self) (hsign n)
    | negSucc n =>
      have hsucc := ofNat_injective (List.cons.inj h).2
      rw [Nat.add_right_cancel hsucc]

end Text

/-! ## Names of classes -/

namespace TokenKind

/-- Different classes have different names, since a class is found by its name. -/
theorem name_injective : Function.Injective name := by
  intro j k h
  have hclass := ofName?_name k
  rw [← h, ofName?_name] at hclass
  exact Option.some.inj hclass

/-- The name of a class holds neither a space nor a parenthesis. So it ends where the first space or
the first parenthesis stands behind it. -/
theorem not_mem_name (k : TokenKind) : ' ' ∉ k.name ∧ '(' ∉ k.name := by
  cases k <;> decide

/-- The name of a class holds no line end. -/
theorem isLineEnd_of_mem_name (k : TokenKind) : ∀ c ∈ k.name, isLineEnd c = false := by
  have hall : (k.name.all fun c => !isLineEnd c) = true := by cases k <;> decide
  intro c hc
  simpa using List.all_eq_true.mp hall c hc

end TokenKind

namespace Token

variable {t u : Token} {ts us : List Token} {c : Char}

/-! ## Lines of a dump -/

/-- A token as a line of a dump, without the end of the line. -/
def dumpRow (t : Token) : Text :=
  (Text.ofInt t.line).padLeft 4 ++ ':' :: ((Text.ofInt t.column).padRight 3 ++
    ' ' :: (if t.startsLine then '^' else ' ') :: ' ' :: (t.kind.name.padRight 17 ++
      ' ' :: t.value.quoted))

/-- A line of a dump is its row with a line feed behind it. -/
theorem dumpLine_eq (t : Token) : t.dumpLine = t.dumpRow ++ ['\n'] := by
  simp [dumpLine, dumpRow]

/-- A dump is the rows of its tokens, with a line feed behind each. -/
theorem dump_eq (ts : List Token) : dump ts = ts.flatMap fun t => t.dumpRow ++ ['\n'] :=
  congrArg ts.flatMap (funext dumpLine_eq)

/-- A row holds no line end. The value is quoted, which replaces the line ends in it, and the other
fields hold numerals, names and spaces. -/
theorem isLineEnd_of_mem_dumpRow (h : c ∈ t.dumpRow) : isLineEnd c = false := by
  have hspace : ∀ {n : Nat}, c ∈ Text.spaces n → isLineEnd c = false := fun hc => by
    obtain rfl := List.eq_of_mem_replicate hc
    rfl
  simp only [dumpRow, Text.padLeft, Text.padRight, List.mem_append, List.mem_cons] at h
  rcases h with (h | h) | rfl | (h | h) | rfl | rfl | rfl | (h | h) | rfl | h
  · exact hspace h
  · exact Text.isLineEnd_of_mem_ofInt h
  · rfl
  · exact Text.isLineEnd_of_mem_ofInt h
  · exact hspace h
  · rfl
  · split <;> rfl
  · rfl
  · exact t.kind.isLineEnd_of_mem_name c h
  · exact hspace h
  · rfl
  · exact Text.isLineEnd_of_mem_quoted h

/-- **The lines of a dump**, one for each token. No row has a line end in it, since values are
quoted. -/
theorem splitLines_dump (ts : List Token) : (dump ts).splitLines = ts.map dumpRow := by
  have hrows : dump ts = (ts.map dumpRow).flatMap fun row => row ++ ['\n'] := by
    rw [dump_eq, List.flatMap_map]
  have hends : ∀ row ∈ ts.map dumpRow, ∀ c ∈ row, isLineEnd c = false := by
    intro row hrow c hc
    obtain ⟨t, -, rfl⟩ := List.mem_map.mp hrow
    exact isLineEnd_of_mem_dumpRow hc
  have hlines := Text.splitLines_flatMap_append hends []
  rw [List.append_nil] at hlines
  rw [hrows, hlines, Text.splitLines, List.append_nil]

/-- **A token is got back from its line in a dump.**

**Proof sketch.** Field by field: the first colon ends the number of the line, a space the column,
another space the class, and different values are quoted differently. -/
theorem dumpRow_injective : Function.Injective dumpRow := by
  intro t u h
  have hcolon : ∀ n : Int, ':' ∉ (Text.ofInt n).padLeft 4 := by
    intro n hmem
    rcases List.mem_append.mp hmem with hc | hc
    · exact absurd (List.eq_of_mem_replicate hc) (by decide)
    · exact Text.not_mem_ofInt rfl (by decide) hc
  have hspace : ∀ n : Int, ' ' ∉ Text.ofInt n := fun n => Text.not_mem_ofInt rfl (by decide)
  obtain ⟨hline, h⟩ := Text.append_cons_inj (hcolon t.line) (hcolon u.line) h
  obtain ⟨hcolumn, h⟩ := Text.padRight_append_inj (hspace t.column) (hspace u.column) h
  obtain ⟨hmark, h⟩ := List.cons.inj h
  obtain ⟨hname, hvalue⟩ := Text.padRight_append_inj t.kind.not_mem_name.1 u.kind.not_mem_name.1
    (List.cons.inj h).2
  have hstarts : t.startsLine = u.startsLine := by
    cases ht : t.startsLine <;> cases hu : u.startsLine <;> simp_all
  cases t
  cases u
  simp only [Token.mk.injEq]
  exact ⟨TokenKind.name_injective hname, Text.quoted_injective hvalue, hstarts,
    Text.ofInt_injective (Text.padLeft_inj (hspace _) (hspace _) hline),
    Text.ofInt_injective hcolumn⟩

/-- **Different lists have different dumps.** The lines of a dump are the rows of its tokens, and a
row tells its token. -/
theorem dump_injective : Function.Injective dump := by
  intro ts us h
  have hlines := congrArg Text.splitLines h
  rw [splitLines_dump, splitLines_dump] at hlines
  exact List.map_injective_iff.mpr dumpRow_injective hlines

/-! ## Entries of a trace -/

/-- A token as an entry of a trace, without the line end before it. -/
def traceBody (t : Token) : Text :=
  t.kind.name ++ '(' :: (t.value.quoted ++ [')', ' '])

/-- An entry of a trace is its body, on a new line where the token starts one. -/
theorem traceEntry_eq (t : Token) :
    t.traceEntry = (if t.startsLine then ['\n'] else []) ++ t.traceBody := by
  simp [traceEntry, traceBody]

/-- The body of an entry holds no line end, since the value in it is quoted. -/
theorem isLineEnd_of_mem_traceBody (h : c ∈ t.traceBody) : isLineEnd c = false := by
  simp only [traceBody, List.mem_append, List.mem_cons, List.not_mem_nil, or_false] at h
  rcases h with h | rfl | h | rfl | rfl
  · exact t.kind.isLineEnd_of_mem_name c h
  · rfl
  · exact Text.isLineEnd_of_mem_quoted h
  · rfl
  · rfl

/-- The line ends of an entry. -/
theorem filter_isLineEnd_traceEntry (t : Token) :
    t.traceEntry.filter isLineEnd = if t.startsLine then ['\n'] else [] := by
  have hbody : t.traceBody.filter isLineEnd = [] :=
    List.filter_eq_nil_iff.mpr fun c hc => by simp [isLineEnd_of_mem_traceBody hc]
  rw [traceEntry_eq, List.filter_append, hbody, List.append_nil]
  split <;> rfl

/-- **A token is got back from its entry in a trace**, but for its place.

**Proof sketch.** The line end before the entry says whether the token starts a line, the
parenthesis ends the class, and different values are quoted differently. -/
theorem traceEntry_eq_iff : t.traceEntry = u.traceEntry ↔
    t.kind = u.kind ∧ t.value = u.value ∧ t.startsLine = u.startsLine := by
  refine ⟨fun h => ?_, fun ⟨hkind, hvalue, hstarts⟩ => ?_⟩
  · have hends := congrArg (List.filter isLineEnd) h
    rw [filter_isLineEnd_traceEntry, filter_isLineEnd_traceEntry] at hends
    have hstarts : t.startsLine = u.startsLine := by
      cases ht : t.startsLine <;> cases hu : u.startsLine <;> simp_all
    rw [traceEntry_eq, traceEntry_eq, hstarts] at h
    obtain ⟨hname, hrest⟩ := Text.append_cons_inj t.kind.not_mem_name.2 u.kind.not_mem_name.2
      (List.append_cancel_left h)
    exact ⟨TokenKind.name_injective hname,
      Text.quoted_injective (List.append_cancel_right hrest), hstarts⟩
  · rw [traceEntry_eq, traceEntry_eq, traceBody, traceBody, hkind, hvalue, hstarts]

/-! ## Faithfulness -/

/-- **Dumps and traces show tokens as they are.** A dump has one line for each token, that of the
token, and different token lists have different dumps. No value is shown with a line end. An entry
of a trace tells the class of a token, its value and whether it starts a line, and its only line end
is the one in front of it that it has just where it does. -/
theorem dump_and_trace_faithful :
    (∀ ts : List Token, (dump ts).splitLines = ts.map dumpRow ∧
      dump ts = ts.flatMap fun t => t.dumpRow ++ ['\n']) ∧
    (∀ value : Text, value.quoted.filter isLineEnd = []) ∧
    (∀ ts us : List Token, dump ts = dump us ↔ ts = us) ∧
    (∀ t u : Token, t.traceEntry = u.traceEntry ↔
      t.kind = u.kind ∧ t.value = u.value ∧ t.startsLine = u.startsLine) ∧
    ∀ t : Token, t.traceEntry.filter isLineEnd = (if t.startsLine then ['\n'] else []) ∧
      (t.traceEntry.head? = some '\n' ↔ t.startsLine = true) := by
  refine ⟨fun ts => ⟨splitLines_dump ts, dump_eq ts⟩, fun value => ?_,
    fun ts us => dump_injective.eq_iff, fun t u => traceEntry_eq_iff,
    fun t => ⟨filter_isLineEnd_traceEntry t, ?_⟩⟩
  · exact List.filter_eq_nil_iff.mpr fun c hc => by simp [Text.isLineEnd_of_mem_quoted hc]
  · have hhead : t.traceBody.head? ≠ some '\n' := fun heq =>
      absurd (isLineEnd_of_mem_traceBody (List.mem_of_mem_head? heq)) (by decide)
    rw [traceEntry_eq]
    cases t.startsLine <;> simp [hhead]

end Token

end Manpage
