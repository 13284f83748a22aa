import Manpage.Proofs.Program.Chunk
import Manpage.Proofs.Render.Lines
import Mathlib.Data.List.Infix

/-!
# Chunks of a rendered source

Wherever a chunk of ink stands in a source, in text, as the argument of a macro, in a title or
behind a tag, the texts of its tokens are put together as one word. So they are shown on one line
with nothing between them. A quoted argument is the exception: its words are not put together, and a
chunk in it that shows several texts may be divided between two of them.

## Main definitions

* `Manpage.Chunk.Occurrence.texts` — the texts that a chunk shows, with those that are shown before
  and after it.
* `Manpage.Chunk.Occurrence.IsWhole` — a text in which a chunk is shown in one piece.
* `Manpage.Chunk.Occurrence.IsUnquoted` — no quoted argument is open while the chunk is read.

## Main results

* `Manpage.Chunk.Occurrence.isWhole_of_render` — a chunk is shown in one piece, unless it shows
  several texts in a quoted argument.
* `Manpage.Chunk.Occurrence.not_forall_isWhole` — in a quoted argument it may be divided.
-/

namespace Manpage.Chunk.Occurrence

variable {source text : Text} {requested : Option Section} {width : Int} {isolating : Bool}

/-! ## Reading up to a chunk, and the chunk -/

/-- What the tokens before the chunk amount to. -/
def readBefore (o : Occurrence source) (isolating : Bool) : Step :=
  feedAll isolating [] o.tokensBefore

/-- What the tokens of the chunk amount to. -/
def read (o : Occurrence source) (isolating : Bool) : Step :=
  feedAll isolating (o.readBefore isolating).frames o.tokens

/-- The program of the tokens after the chunk. -/
def programAfter (o : Occurrence source) (isolating : Bool) : List Instr :=
  programFrom isolating (o.read isolating).frames o.tokensAfter

/-- The program of the source falls into that of what comes before the chunk, that of the chunk, and
that of what follows it. -/
theorem program_eq (o : Occurrence source) (isolating : Bool) :
    program isolating (Token.ofSource source) =
      (o.readBefore isolating).out ++ ((o.read isolating).out ++ o.programAfter isolating) := by
  rw [o.ofSource_eq, program, programFrom_append, programFrom_append]
  rfl

/-- No quoted argument is open while the chunk is read, neither before nor after any of its
tokens. -/
def IsUnquoted (o : Occurrence source) (isolating : Bool) : Prop :=
  ∀ ts ∈ o.tokens.inits,
    Frame.quoted ∉ (feedAll isolating (o.readBefore isolating).frames ts).frames

/-- Whether a quoted argument is open is seen from the frames behind each beginning of the chunk, of
which there are finitely many. -/
instance (o : Occurrence source) (isolating : Bool) : Decidable (o.IsUnquoted isolating) :=
  inferInstanceAs (Decidable (∀ ts ∈ o.tokens.inits, _))

/-- Behind a blank no word is open, unless what follows is hidden.

**Proof sketch.** The frames that are open before the chunk are those behind the blank, which is
taken by a frame that hides tokens or by one with no word above it. -/
theorem isHidden_or_not_mem (o : Occurrence source) (isolating : Bool) :
    o.chunksBefore.isEmpty = true ∨ IsHidden (o.readBefore isolating).frames ∨
      Frame.unit ∉ (o.readBefore isolating).frames := by
  rcases o.tokensBefore_cases with hfirst | ⟨ts, b, hbefore, hb⟩
  · exact Or.inl hfirst
  obtain ⟨q, hafter, -⟩ := Stage.after_ofSource source
  rw [o.ofSource_eq] at hafter
  obtain ⟨r, hafter, -⟩ := Stage.exists_after_of_append hafter
  have hready : Ready (Token.ofSource source) .between [] := rfl
  have hfits : (feedAll isolating [] o.tokensBefore).Fits (Token.ofSource source) _ r :=
    feedAll_fits hready hafter fun t ht => by rw [o.ofSource_eq]; exact List.mem_append_left _ ht
  have hlast : (o.readBefore isolating).frames =
      (feed isolating (feedAll isolating [] ts).frames b).frames := by
    rw [readBefore, hbefore, feedAll_append]
    rfl
  rw [hlast]
  exact Or.inr (feed_blank hb (hlast ▸ hfits.ready))

/-- A token of a chunk, or before it, is a token of the source, and so stands where tokens of its
kind stand. -/
theorem isPlaced_of_mem (o : Occurrence source) {t : Token}
    (ht : t ∈ o.tokensBefore ∨ t ∈ o.tokens) : t.IsPlaced := by
  have hmem : t ∈ Token.ofSource source := by
    rw [o.ofSource_eq, List.mem_append, List.mem_append]
    exact ht.imp_right Or.inl
  exact Token.isPlaced_of_mem_ofSource hmem

/-- The tokens of a chunk show nothing but in one word, unless a quoted argument is open.

**Proof sketch.** A macro shows nothing. Any other chunk starts its line or follows a blank, so that
its first token opens a word, or is hidden; the other tokens go on in the same way. -/
theorem isOneWord_read (o : Occurrence source) (h : o.IsUnquoted isolating) :
    IsOneWord (o.read isolating).out := by
  have hfree : ∀ f ∈ (o.readBefore isolating).frames, f.IsFreeOf Instr.isEmit :=
    feedAll_free isolating (fun t ht => o.isPlaced_of_mem (Or.inl ht)) (List.forall_mem_nil _)
  rcases o.tokens_cases with ⟨t, htokens, hk⟩ | ⟨t, ts, htokens, ht, hl, hts⟩
  · have hplaced : t.IsPlaced := o.isPlaced_of_mem (Or.inr (by simp [htokens]))
    have hsilent := (feed_macroName_silent isolating hplaced hk hfree).1
    rw [read, htokens]
    exact Or.inl (hsilent.append (by simp [NoneOf, feedAll]))
  · have hline : t.startsLine = true ∨ IsHidden (o.readBefore isolating).frames ∨
        Frame.unit ∉ (o.readBefore isolating).frames := by
      rw [hl]
      exact o.isHidden_or_not_mem isolating
    have hinit : ∀ us, us <+: o.tokens →
        Frame.quoted ∉ (feedAll isolating (o.readBefore isolating).frames us).frames :=
      fun us hus => h us ((List.mem_inits us o.tokens).mpr hus)
    rw [read, htokens]
    refine feedAll_isOneWord isolating ht hts hfree hline (hinit [] (List.nil_prefix)) ?_
    exact hinit [t] ⟨ts, by rw [htokens]; rfl⟩

/-! ## What is shown of a chunk -/

/-- The texts that are shown before the chunk. -/
def textsBefore (o : Occurrence source) (requested : Option Section) (width : Int) : List Text :=
  (Machine.started requested width).shown (o.readBefore requested.isSome).out

/-- The texts that are shown of the chunk. -/
def texts (o : Occurrence source) (requested : Option Section) (width : Int) : List Text :=
  ((Machine.started requested width).exec (o.readBefore requested.isSome).out).shown
    (o.read requested.isSome).out

/-- The texts that are shown after the chunk. -/
def textsAfter (o : Occurrence source) (requested : Option Section) (width : Int) : List Text :=
  ((Machine.started requested width).exec
    ((o.readBefore requested.isSome).out ++ (o.read requested.isSome).out)).shown
      (o.programAfter requested.isSome)

/-- A text in which the chunk is shown in one piece, that is on one line and with nothing between
its texts, behind what is shown before it and before what is shown after it. -/
def IsWhole (o : Occurrence source) (requested : Option Section) (width : Int) (text : Text) :
    Prop :=
  ∃ a s b : Text, text = a ++ (s ++ b) ∧ Text.Shows (o.textsBefore requested width) a ∧
    Text.Joins (o.texts requested width) s ∧ '\n' ∉ s ∧
    Text.Shows (o.textsAfter requested width) b

/-- **No chunk is divided but in a quoted argument.** For every chunk of ink of a source, every
section and width, the rendered text shows what the chunk shows in one piece, unless the chunk shows
several texts and a quoted argument is open meanwhile.

**Proof sketch.** The program of the chunk shows its texts in one word, which is opened where no
other word is open. The texts become the pieces of that word, and whatever is done to the page
afterwards leaves them side by side. -/
theorem isWhole_of_render (o : Occurrence source) (h : render source requested width = .ok text)
    (hchunk : o.IsUnquoted requested.isSome ∨ (o.texts requested width).length ≤ 1) :
    o.IsWhole requested width text := by
  obtain ⟨hfault, rfl⟩ := render_eq_ok_iff.mp h
  have hinterpret : interpretSource source requested width =
      (Machine.started requested width).run
        (program requested.isSome (Token.ofSource source)) := rfl
  rw [hinterpret] at hfault ⊢
  rw [Machine.run_eq_exec_of_fault_eq_none hfault, o.program_eq]
  have hbegins := Machine.begins_started requested width
  have hcarries := program_carries requested.isSome source
  rw [o.program_eq] at hcarries
  by_cases hone : (o.texts requested width).length ≤ 1
  · exact Machine.showsWhole_of_length_le_one hbegins hcarries.sound hone
  rcases o.isOneWord_read (hchunk.resolve_right hone) with hsilent | ⟨pre, inner, hread, hpre, hin⟩
  · have hnone : o.texts requested width = [] := Machine.shown_of_not_isEmit _ hsilent
    exact absurd (by simp [hnone]) hone
  · unfold IsWhole textsBefore texts textsAfter
    rw [hread] at hcarries ⊢
    exact Machine.showsWhole_of_word hbegins hcarries hpre hin

/-- An argument of a macro, in two fonts and with two escapes. -/
def longOption : Occurrence ".BR a \\-\\-ver\\fIbose\\fR c\n".toList where
  linesBefore := []
  line := ".BR a \\-\\-ver\\fIbose\\fR c".toList
  linesAfter := []
  chunksBefore := [⟨0, ".BR".toList⟩, ⟨3, " ".toList⟩, ⟨4, "a".toList⟩, ⟨5, " ".toList⟩]
  chunk := ⟨6, "\\-\\-ver\\fIbose\\fR".toList⟩
  chunksAfter := [⟨23, " ".toList⟩, ⟨24, "c".toList⟩]
  lines_eq := by decide +kernel
  chunks_eq := by decide +kernel
  isInk := by decide +kernel
  not_isComment := by decide +kernel

/-- An option that is longer than a line is not divided. -/
theorem isWhole_longOption :
    (render ".BR a \\-\\-ver\\fIbose\\fR c\n".toList none 6 =
        .ok "\x1b[1ma\x1b[0m\n--ver\x1b[3mbose\x1b[0m\n\x1b[1mc\x1b[0m".toList ∧
      longOption.IsUnquoted false) ∧
    longOption.IsWhole none 6
      "\x1b[1ma\x1b[0m\n--ver\x1b[3mbose\x1b[0m\n\x1b[1mc\x1b[0m".toList := by
  have hrender : render ".BR a \\-\\-ver\\fIbose\\fR c\n".toList none 6 =
      .ok "\x1b[1ma\x1b[0m\n--ver\x1b[3mbose\x1b[0m\n\x1b[1mc\x1b[0m".toList := by
    decide +kernel
  have hunquoted : longOption.IsUnquoted false := by decide +kernel
  exact ⟨⟨hrender, hunquoted⟩, isWhole_of_render longOption hrender (Or.inl hunquoted)⟩

/-- A word with an escape in a quoted argument. -/
def quotedOption : Occurrence ".IP \"x ab\\-cd\" 0\n".toList where
  linesBefore := []
  line := ".IP \"x ab\\-cd\" 0".toList
  linesAfter := []
  chunksBefore := [⟨0, ".IP".toList⟩, ⟨3, " ".toList⟩, ⟨4, "\"x".toList⟩, ⟨6, " ".toList⟩]
  chunk := ⟨7, "ab\\-cd\"".toList⟩
  chunksAfter := [⟨14, " ".toList⟩, ⟨15, "0".toList⟩]
  lines_eq := by decide +kernel
  chunks_eq := by decide +kernel
  isInk := by decide +kernel
  not_isComment := by decide +kernel

/-- In a quoted argument a chunk may be divided, also where it would fit on the next line. -/
theorem not_forall_isWhole :
    ¬ ∀ (source : Text) (o : Occurrence source) (requested : Option Section) (width : Int)
      (text : Text), render source requested width = .ok text →
        o.IsWhole requested width text := by
  intro hall
  obtain ⟨a, s, b, htext, -, hs, hfeed, -⟩ :=
    hall _ quotedOption none 6 "x ab-\ncd".toList (by decide +kernel)
  have htexts : quotedOption.texts none 6 = ["ab".toList, "-".toList, "cd".toList] := by
    decide +kernel
  rw [htexts] at hs
  have hfirst : 'a' ∈ s := hs.mem List.mem_cons_self (by decide)
  have hlast : 'd' ∈ s := hs.mem (t := "cd".toList) (by decide) (by decide)
  -- one piece of the text that has both letters has the line feed between them, too
  have hpieces : ∀ i j : Fin 9, 'a' ∈ (("x ab-\ncd".toList).drop i).take j →
      'd' ∈ (("x ab-\ncd".toList).drop i).take j →
        '\n' ∈ (("x ab-\ncd".toList).drop i).take j := by
    decide
  have hlength := congrArg List.length htext
  simp only [List.length_append] at hlength
  have hpiece : (("x ab-\ncd".toList).drop a.length).take s.length = s := by
    rw [htext, List.drop_left, List.take_left]
  have htotal : "x ab-\ncd".toList.length = 8 := by decide
  have hletters := hpieces ⟨a.length, by omega⟩ ⟨s.length, by omega⟩
  rw [hpiece] at hletters
  exact hfeed (hletters hfirst hlast)

end Manpage.Chunk.Occurrence
