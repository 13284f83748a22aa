import Manpage.Proofs.Machine.Shown
import Manpage.Proofs.Machine.Title
import Manpage.Proofs.Program.Alternating

/-!
# Arguments in two fonts on a page

Where lines are filled and output is visible, an alternating macro puts the words of its arguments
on the page, each in the font of its argument, and spaces between them. A line that is blank and has
room for the words ends up with them, one plain space between any two, and with no style in effect.

## Main definitions

* `Manpage.Alternating.slots` — the words and spaces of a line.
* `Manpage.Machine.Shows` — instructions that put slots on the page.

## Main results

* `Manpage.Machine.shows_instrs` — what the arguments amount to puts these slots on the page.
* `Manpage.Alternating.pieces_slots`, `Manpage.Alternating.separated_slots` — the words in turn, and
  spaces between them.
* `Manpage.Machine.run_alternating` — an alternating macro on a line with room for its words.
-/

namespace Manpage

variable {m : Machine} {p : Page} {w name : Text} {ms : List Text} {xs ys : List Slot}
  {is js : List Instr} {odd even font other : Font} {first : Bool} {next : List Token}

/-! ## Slots -/

namespace Alternating

/-- A chunk of plain characters, in a font. -/
def chunkSlot (font : Font) (m : Text) : Slot :=
  if m.isBlank then .space else .word font m

/-- Blanks, except before the first argument. -/
def gapSlots (first : Bool) (b : Text) : List Slot :=
  if first then [] else (b.splitBy sameChunk).map fun _ => .space

/-- The words of an argument, and the spaces between them. -/
def Argument.slots (font : Font) : Argument → List Slot
  | bare w _ _ => [.word font w.1]
  | quoted t => (t.1.splitBy sameChunk).map (chunkSlot font)

/-- The end of the arguments. -/
def LineEnding.slots (first : Bool) (font : Font) : LineEnding → List Slot
  | blanks b _ => gapSlots first b ++ [.space]
  | unclosed gap t => gapSlots first gap.1 ++ ((Argument.quoted t).slots font ++ [.space])

/-- **The words and spaces of a line.** -/
def slots (first : Bool) (font other : Font) : List (Gap × Argument) → LineEnding → List Slot
  | [], ending => ending.slots first font
  | a :: args, ending =>
    gapSlots first a.1.1 ++ (a.2.slots font ++ slots false other font args ending)

/-! ### Words -/

/-- The pieces of two rows of slots are those of the first and those of the second. -/
theorem pieces_append (xs ys : List Slot) :
    Slot.pieces (xs ++ ys) = Slot.pieces xs ++ Slot.pieces ys :=
  List.filterMap_append

/-- Blanks are no words. -/
theorem pieces_gapSlots (first : Bool) (b : Text) : Slot.pieces (gapSlots first b) = [] := by
  cases first with
  | true => rfl
  | false => simp [gapSlots, Slot.pieces, Slot.piece?]

/-- The words of an argument. Blank chunks of a quoted argument are spaces and no pieces. -/
theorem pieces_argument (font : Font) (a : Argument) :
    Slot.pieces (a.slots font) = a.words.map (⟨·, font.face?⟩) := by
  cases a with
  | bare w hne hink => rfl
  | quoted t =>
    simp only [Argument.slots, Argument.words, Slot.pieces]
    induction t.1.splitBy sameChunk with
    | nil => rfl
    | cons m ms ih =>
      cases hm : Text.isBlank m <;> simp [chunkSlot, Slot.piece?, List.filterMap_cons, hm, ih]

/-- **The words of a line take the two fonts by turns.**

**Proof sketch.** By induction on the arguments, with the fonts changing places. Gaps and the end of
the line have no pieces, and an argument has its words in one font. -/
theorem pieces_slots (first : Bool) (font other : Font) (args : List (Gap × Argument))
    (ending : LineEnding) :
    Slot.pieces (slots first font other args ending) =
      turns font other (Line.all ⟨args, ending⟩) := by
  induction args generalizing first font other with
  | nil =>
    cases ending with
    | blanks b hb =>
      simp only [slots, LineEnding.slots, pieces_append, pieces_gapSlots]
      rfl
    | unclosed gap t =>
      have hall : Line.all ⟨[], .unclosed gap t⟩ = [.quoted t] := rfl
      simp only [slots, LineEnding.slots, pieces_append, pieces_gapSlots, pieces_argument, hall,
        turns_cons]
      rfl
  | cons a args ih =>
    have hall : Line.all ⟨a :: args, ending⟩ = a.2 :: Line.all ⟨args, ending⟩ := rfl
    rw [slots, pieces_append, pieces_append, pieces_gapSlots, pieces_argument, ih, hall, turns_cons,
      List.nil_append]

/-- The words of an argument are ink. A bare argument is ink by itself, and a chunk of a quoted one
is ink where it is not blank. -/
theorem isProper_argument (font : Font) (a : Argument) : ∀ i ∈ a.slots font, i.IsProper := by
  intro i hi
  cases a with
  | bare w hne hink =>
    obtain rfl := List.mem_singleton.mp hi
    exact ⟨hne, hink⟩
  | quoted t =>
    obtain ⟨m, hm, rfl⟩ := List.mem_map.mp hi
    unfold chunkSlot
    split
    · trivial
    · rename_i hb
      exact ⟨List.ne_nil_of_mem_splitBy hm,
        (isBlank_or_isInk_of_isChain (List.isChain_of_mem_splitBy hm)).resolve_left hb⟩

/-- The slots of a gap are spaces, and so they are proper. -/
theorem isProper_gapSlots (first : Bool) (b : Text) : ∀ i ∈ gapSlots first b, i.IsProper := by
  intro i hi
  cases first with
  | true => exact absurd hi List.not_mem_nil
  | false =>
    obtain ⟨-, -, rfl⟩ := List.mem_map.mp hi
    trivial

/-- The slots of a line are proper: its words are ink and are not empty. By induction on the
arguments. -/
theorem isProper_slots (first : Bool) (font other : Font) (args : List (Gap × Argument))
    (ending : LineEnding) : ∀ i ∈ slots first font other args ending, i.IsProper := by
  induction args generalizing first font other with
  | nil =>
    cases ending with
    | blanks b hb =>
      simp only [slots, LineEnding.slots, List.forall_mem_append]
      exact ⟨isProper_gapSlots first b, by simp [Slot.IsProper]⟩
    | unclosed gap t =>
      simp only [slots, LineEnding.slots, List.forall_mem_append]
      exact ⟨isProper_gapSlots first _, isProper_argument font _, by simp [Slot.IsProper]⟩
  | cons a args ih =>
    simp only [slots, List.forall_mem_append]
    exact ⟨isProper_gapSlots first _, isProper_argument font _, ih false other font⟩

/-! ### Spaces between words -/

/-- Slots that begin with a space, behind others. -/
theorem separated_append (hxs : Slot.Separated xs) (hys : Slot.Separated ys)
    (hspace : ∀ i ∈ ys.head?, i = .space) : Slot.Separated (xs ++ ys) :=
  List.isChain_append.mpr ⟨hxs, hys, fun _ _ i hi _ => hspace i hi⟩

/-- Spaces before other slots. Whatever comes behind a space, no word stands before it. -/
theorem separated_gapSlots_append (first : Bool) (b : Text) (hys : Slot.Separated ys) :
    Slot.Separated (gapSlots first b ++ ys) := by
  cases first with
  | true => exact hys
  | false =>
    simp only [gapSlots, if_neg Bool.false_ne_true]
    induction b.splitBy sameChunk with
    | nil => exact hys
    | cons m ms ih => exact List.IsChain.cons ih fun _ _ h => Bool.noConfusion h

/-- The words of an argument have spaces between them. Its chunks take turns: behind ink there are
blanks. -/
theorem separated_argument (font : Font) (a : Argument) : Slot.Separated (a.slots font) := by
  cases a with
  | bare w hne hink => exact List.isChain_singleton _
  | quoted t =>
    refine (List.isChain_map _).mpr ?_
    -- of two neighbouring chunks one is not ink, so it is blank
    refine List.IsChain.imp_of_mem_imp ?_ (isChain_not_isInk_splitBy t.1)
    intro m n hm hn hmn hword
    have hblank : ∀ {k : Text}, k ∈ t.1.splitBy sameChunk → k.isBlank = false → k.isInk = true := by
      intro k hk hb
      exact (isBlank_or_isInk_of_isChain (List.isChain_of_mem_splitBy hk)).resolve_left
        (by simp [hb])
    have hmb : Text.isBlank m = false := by
      by_contra hb
      rw [chunkSlot, if_pos (by simpa using hb)] at hword
      exact Bool.noConfusion hword
    have hnb : Text.isBlank n = true := by
      by_contra hb
      have hnk := hblank hn (by simpa using hb)
      rw [hmn (hblank hm hmb)] at hnk
      exact Bool.noConfusion hnk
    rw [chunkSlot, if_pos hnb]

/-- A space, and nothing else, comes after an argument. It stands for the first chunk of the gap, or
for the end of the line where there is none. -/
theorem head?_slots (font other : Font) (args : List (Gap × Argument)) (ending : LineEnding) :
    ∀ i ∈ (slots false font other args ending).head?, i = .space := by
  have hgap : ∀ (b : Text) (ys : List Slot), (b = [] → ∀ i ∈ ys.head?, i = .space) →
      ∀ i ∈ (gapSlots false b ++ ys).head?, i = .space := by
    intro b ys hys i hi
    rw [gapSlots, if_neg Bool.false_ne_true] at hi
    cases hb : b.splitBy sameChunk with
    | nil =>
      rw [hb] at hi
      exact hys (List.splitBy_eq_nil.mp hb) i hi
    | cons m ms =>
      rw [hb] at hi
      simpa using hi.symm
  cases args with
  | cons a args => exact hgap _ _ fun hnil => absurd hnil a.1.2.1
  | nil =>
    cases ending with
    | blanks b hb => exact hgap _ _ fun _ => by simp
    | unclosed gap t => exact hgap _ _ fun hnil => absurd hnil gap.2.1

/-- **No two words of a line without a space between them.** By induction on the arguments: what
comes behind one of them begins with a space. -/
theorem separated_slots (first : Bool) (font other : Font) (args : List (Gap × Argument))
    (ending : LineEnding) : Slot.Separated (slots first font other args ending) := by
  have hend : Slot.Separated [.space] := List.isChain_singleton _
  induction args generalizing first font other with
  | nil =>
    cases ending with
    | blanks b hb => exact separated_gapSlots_append first b hend
    | unclosed gap t =>
      exact separated_gapSlots_append first _
        (separated_append (separated_argument font _) hend (by simp))
  | cons a args ih =>
    exact separated_gapSlots_append first _
      (separated_append (separated_argument font a.2) (ih false other font)
        (head?_slots other font args ending))

end Alternating

/-! ## Slots on a page -/

namespace Page

/-- A space has no face, so it is the same in every style. It can be put on the page before a style
is set or behind that. -/
theorem appendSpace_setStyle (p : Page) (font : Font) (value : Bool) :
    (p.setStyle font value).appendSpace = p.appendSpace.setStyle font value := by
  have hite : ∀ (c : Prop) [Decidable c] (q r : Page), (if c then q else r).setStyle font value =
      if c then q.setStyle font value else r.setStyle font value := fun c _ q r =>
    apply_ite (·.setStyle font value) c q r
  have hput : (p.setStyle font value).put [' '] = (p.put [' ']).setStyle font value := by
    unfold put setStyle
    cases p.word <;> rfl
  have happend : (p.setStyle font value).append [' '] = (p.append [' ']).setStyle font value := by
    rw [append_space, append_space, hite, hite, ← hput]
    rfl
  unfold appendSpace
  rw [hite, ← happend]
  rfl

/-- A chunk of plain characters between quotes. -/
def appendChunk (p : Page) (m : Text) : Page :=
  if m.isBlank then p.appendSpace else p.append m

/-- Chunks in a font are the slots of that font, whatever the style is outside of them.

**Proof sketch.** By induction on the chunks. A slot puts its word in the font and has the style as
before at its end, and a space does not ask for the style. -/
theorem foldl_set_chunkSlot (p : Page) (font : Font) (ms : List Text) :
    (ms.map (Alternating.chunkSlot font)).foldl set p =
      { ms.foldl appendChunk (p.setStyle font true) with style := p.style } := by
  induction ms generalizing p with
  | nil => rfl
  | cons m ms ih =>
    rw [List.map_cons, List.foldl_cons, List.foldl_cons, ih]
    have hstyle : (p.set (Alternating.chunkSlot font m)).style = p.style :=
      congrArg Settings.style (settings_set p (Alternating.chunkSlot font m))
    have hchunk : (p.set (Alternating.chunkSlot font m)).setStyle font true =
        (p.setStyle font true).appendChunk m := by
      unfold Alternating.chunkSlot appendChunk
      split
      · exact (appendSpace_setStyle p font true).symm
      · have hsame : ((p.setStyle font true).append m).style = (p.setStyle font true).style :=
          congrArg Settings.style (settings_append (p.setStyle font true) m)
        show { (p.setStyle font true).append m with style := (p.setStyle font true).style } = _
        rw [← hsame]
    rw [hstyle, hchunk]

end Page

namespace Machine

open Alternating

/-- Instructions that put slots on the page, where output is visible and lines are filled. -/
def Shows (is : List Instr) (xs : List Slot) : Prop :=
  ∀ m : Machine, m.isVisible = true → m.page.noFill = false →
    m.exec is = m.onPage fun p => xs.foldl Page.set p

/-- No instructions show no slots. -/
theorem shows_nil : Shows [] [] :=
  fun _ _ _ => rfl

/-- Instructions that show slots, and others that show further slots, show them one after another.
-/
theorem Shows.append (his : Shows is xs) (hjs : Shows js ys) : Shows (is ++ js) (xs ++ ys) := by
  intro m hvisible hfill
  have hfill' : (m.onPage fun p => xs.foldl Page.set p).page.noFill = false :=
    (congrArg Page.Settings.noFill (Page.settings_foldl_set m.page xs)).trans hfill
  rw [exec_append, his m hvisible hfill,
    hjs (m.onPage fun p => xs.foldl Page.set p) hvisible hfill']
  simp only [List.foldl_append]
  rfl

/-- A blank is a space between words. -/
theorem shows_blank (u : Text) : Shows [.blank u] [.space] :=
  fun _ hvisible hfill => apply_blank_of_fill hvisible hfill u

/-- The instruction for a space shows a space. -/
theorem shows_space : Shows [.space] [.space] :=
  fun _ hvisible _ => output_of_isVisible hvisible Page.appendSpace

/-- Blanks between arguments. The first gap of a line shows nothing; of the others each chunk is a
space. -/
theorem shows_gapInstrs (first : Bool) (b : Text) :
    Shows (gapInstrs first b) (gapSlots first b) := by
  cases first with
  | true => exact shows_nil
  | false =>
    simp only [gapInstrs, gapSlots, if_neg Bool.false_ne_true]
    induction b.splitBy sameChunk with
    | nil => exact shows_nil
    | cons u us ih => exact (shows_blank u).append ih

/-- Chunks between quotes are put on the page one by one.

**Proof sketch.** By induction on the chunks. A blank is a space, as lines are filled, and a word is
a text; neither changes whether lines are filled or seen. -/
theorem exec_chunks (hvisible : m.isVisible = true) (hfill : m.page.noFill = false)
    (us : List Text) :
    m.exec (us.map showChunk) = m.onPage fun p => us.foldl Page.appendChunk p := by
  induction us generalizing m with
  | nil => rfl
  | cons u us ih =>
    have hchunk : m.apply (showChunk u) = m.onPage (·.appendChunk u) := by
      unfold showChunk Page.appendChunk
      split
      · exact apply_blank_of_fill hvisible hfill u
      · exact output_of_isVisible hvisible (·.append u)
    have hfill' : (m.onPage (·.appendChunk u)).page.noFill = false := by
      have hsettings : (m.page.appendChunk u).settings = m.page.settings := by
        unfold Page.appendChunk
        split
        · exact Page.settings_appendSpace m.page
        · exact Page.settings_append m.page u
      exact (congrArg Page.Settings.noFill hsettings).trans hfill
    rw [List.map_cons, exec_cons, hchunk, ih (m := m.onPage (·.appendChunk u)) hvisible hfill']
    rfl

/-- **An argument** puts its words on the page, in its font.

**Proof sketch.** The font is selected in a scope of its own, and taken back where the argument
ends. Between that, a bare argument is one word, and the chunks of a quoted one are the slots. -/
theorem shows_argument (font : Font) (a : Argument) : Shows (a.instrs font) (a.slots font) := by
  intro m hvisible hfill
  have hshown : (m.apply (.openStyle font)).isVisible = true := hvisible
  have hclose : ∀ f : Page → Page,
      (m.apply (.openStyle font)).exec a.content = (m.apply (.openStyle font)).onPage f →
      m.exec (a.instrs font) =
        m.onPage fun p => { f (p.setStyle font true) with style := p.style } := by
    intro f hf
    rw [Argument.instrs, exec_cons, exec_append, hf, exec_cons, exec_nil,
      apply_closeScope_of_style rfl]
    rfl
  cases a with
  | bare w hne hink => exact hclose (·.append w.1) (exec_unit hshown hne hink)
  | quoted t =>
    rw [hclose _ (exec_chunks hshown hfill (t.1.splitBy sameChunk))]
    exact congrArg m.onPage (funext fun p => (Page.foldl_set_chunkSlot p font _).symm)

/-- **What arguments amount to** puts their words and spaces on the page. By induction on the
arguments, each with its gap before it. -/
theorem shows_instrs (first : Bool) (font other : Font) (args : List (Gap × Argument))
    (ending : LineEnding) :
    Shows (instrs first font other args ending) (slots first font other args ending) := by
  induction args generalizing first font other with
  | nil =>
    cases ending with
    | blanks b hb => exact (shows_gapInstrs first b).append shows_space
    | unclosed gap t =>
      exact (shows_gapInstrs first gap.1).append ((shows_argument font _).append shows_space)
  | cons a args ih =>
    exact (shows_gapInstrs first a.1.1).append
      ((shows_argument font a.2).append (ih false other font))

/-! ## Alternating macros -/

/-- No instruction of arguments in two fonts can fail. By induction on the arguments: the scopes
that are closed have been opened by them. -/
theorem isSafe_instrs (first : Bool) (font other : Font) (args : List (Gap × Argument))
    (ending : LineEnding) : ∀ i ∈ instrs first font other args ending, i.isSafe = true := by
  have hgap : ∀ (first : Bool) (b : Text), ∀ i ∈ gapInstrs first b, i.isSafe = true := by
    intro first b i hi
    cases first with
    | true => exact absurd hi List.not_mem_nil
    | false =>
      obtain ⟨u, -, rfl⟩ := List.mem_map.mp hi
      rfl
  have hargument : ∀ (font : Font) (a : Argument), ∀ i ∈ a.instrs font, i.isSafe = true := by
    intro font a
    have hcontent : ∀ i ∈ a.content, i.isSafe = true := by
      cases a with
      | bare w hne hink => simp [Argument.content, Instr.isSafe]
      | quoted t =>
        intro i hi
        obtain ⟨u, -, rfl⟩ := List.mem_map.mp hi
        unfold showChunk
        split <;> rfl
    simp only [Argument.instrs, List.forall_mem_cons, List.forall_mem_append]
    exact ⟨rfl, hcontent, rfl, by simp⟩
  induction args generalizing first font other with
  | nil =>
    cases ending with
    | blanks b hb =>
      simp only [instrs, LineEnding.instrs, List.forall_mem_append]
      exact ⟨hgap first b, by simp [Instr.isSafe]⟩
    | unclosed gap t =>
      simp only [instrs, LineEnding.instrs, List.forall_mem_append]
      exact ⟨hgap first _, hargument font _, by simp [Instr.isSafe]⟩
  | cons a args ih =>
    simp only [instrs, List.forall_mem_append]
    exact ⟨hgap first _, hargument font a.2, ih false other font⟩

/-- **An alternating macro** with its arguments, on a page where output is visible, lines are
filled, no style is in effect, and the line is blank and has room for the words with a space between
any two. Whatever the line begins below, the macro reads its own line and no more, and puts the
words of the arguments behind what is there: those of each argument in the font whose turn it is,
with one plain space between any two words. A space may follow, or, where the words fill the line,
the end of the line. No style is in effect afterwards, and nothing but the page and the records has
changed.

**Proof sketch.** The macro amounts to a list of words and spaces, in which no two words stand
without a space between them. Its words are those of the arguments in turn. -/
theorem run_alternating (l : Line) (number : Nat) (isolating : Bool)
    (hname : Macro.ofName? name = some (.alternating odd even))
    (hnext : ∀ t ∈ next.head?, t.startsLine = true) (hvisible : m.isVisible = true)
    (hfill : m.page.noFill = false) (hstyle : m.page.style = .plain)
    (hblank : m.page.isLineBlank = true)
    (hroom : m.page.lineLength + (Text.join [' '] l.words).length ≤ m.page.width) :
    ∃ t ts, Token.ofLine number (name ++ l.source) = t :: ts ∧
      (handler isolating t (ts ++ next)).rest = next ∧
      ∃ m' : Machine, m.run (handler isolating t (ts ++ next)).out = ⟨m', none⟩ ∧
        (∃ trail, m'.page.shown = m.page.shown ++
            (Text.join [' '] ((l.pieces odd even).map Piece.shown) ++ trail) ∧
          (trail = [] ∨ trail = [' '] ∨
            m.page.lineLength + (Text.join [' '] l.words).length = m.page.width ∧
              trail = '\n' :: Text.spaces m.page.padding)) ∧
        m'.page.style = .plain ∧ m'.page.settings = m.page.settings ∧
        m'.unrecorded = unrecorded { m with page := m'.page } := by
  obtain ⟨t, ts, htokens, hk, rfl, hl, hts, hlexemes⟩ := l.exists_ofLine_eq number hname
  obtain ⟨hout, hrest⟩ := l.amountsTo_handler isolating hname hts hlexemes hnext
  let xs := slots true odd even l.arguments l.ending
  let is := (handler isolating t (ts ++ next)).out
  have hpieces : Slot.pieces xs = l.pieces odd even := pieces_slots true odd even _ _
  have hsafe : ∀ i ∈ is, i.isSafe = true :=
    Instr.isSafe_of_withoutRecords (hout ▸ isSafe_instrs true odd even l.arguments l.ending)
  -- records apart, the line is run as its slots are set on the page
  have hexec : (m.exec is).unrecorded = (m.onPage fun p => xs.foldl Page.set p).unrecorded := by
    rw [unrecorded_exec_withoutRecords rfl is, hout,
      shows_instrs true odd even l.arguments l.ending m hvisible hfill]
  have hpage : (m.exec is).page = xs.foldl Page.set m.page := congrArg Machine.page hexec
  have hwords : (Slot.pieces xs).map Piece.text = l.words := by
    rw [hpieces, Line.map_text_pieces]
  rw [← hwords] at hroom ⊢
  -- the words fit, so no slot breaks the line before the last one
  obtain ⟨hholds, -⟩ := Page.holds_foldl_set hblank hstyle
    (isProper_slots true odd even l.arguments l.ending)
    (separated_slots true odd even l.arguments l.ending) hroom
  refine ⟨t, ts, htokens, hrest, m.exec is, run_eq hsafe, ?_, ?_, ?_, ?_⟩
  · rw [hpage, ← hpieces]
    exact hholds.shown_eq
  · rw [hpage]
    exact (congrArg Page.Settings.style (Page.settings_foldl_set m.page xs)).trans hstyle
  · rw [hpage, Page.settings_foldl_set]
  · rw [hexec, hpage]
    rfl

/-- Four arguments, the second of them without a word and the last without the quote at its end. -/
def fourArguments : Line where
  arguments :=
    [(⟨"\t ".toList, by decide⟩,
        .bare ⟨"ab".toList, List.all_eq_true.mp (by decide)⟩ (by decide) (by decide)),
      (⟨" ".toList, by decide⟩, .quoted ⟨[], List.all_eq_true.mp (by decide)⟩),
      (⟨" \t".toList, by decide⟩, .quoted ⟨" c \td".toList, List.all_eq_true.mp (by decide)⟩)]
  ending := .unclosed ⟨" ".toList, by decide⟩ ⟨"e f".toList, List.all_eq_true.mp (by decide)⟩

/-- Two fonts on one line, where an argument without a word has its turn. -/
theorem run_alternating_four_arguments :
    ∃ t ts, Token.ofLine 1 ".BI\t ab \"\" \t\" c \td\" \"e f".toList = t :: ts ∧
      ∃ m', (started none 40).run (handler false t (ts ++ [⟨.word, ['g'], true, 2, 1⟩])).out =
          ⟨m', none⟩ ∧
        ∃ trail, m'.page.shown = "\x1b[1mab\x1b[0m \x1b[1mc\x1b[0m \x1b[1md\x1b[0m".toList ++
            (" \x1b[4me\x1b[0m \x1b[4mf\x1b[0m".toList ++ trail) ∧
          (trail = [] ∨ trail = [' ']) := by
  have hname : Macro.ofName? ".BI".toList = some (.alternating .bold .underline) := rfl
  have hnext : ∀ t ∈ [(⟨.word, ['g'], true, 2, 1⟩ : Token)].head?, t.startsLine = true := by simp
  have hfull : ¬ 0 + (Text.join [' '] fourArguments.words).length = 40 := by decide +kernel
  have hwords : Text.join [' '] ((fourArguments.pieces .bold .underline).map Piece.shown) =
      "\x1b[1mab\x1b[0m \x1b[1mc\x1b[0m \x1b[1md\x1b[0m".toList ++
        " \x1b[4me\x1b[0m \x1b[4mf\x1b[0m".toList := by decide +kernel
  obtain ⟨t, ts, htokens, -, m', hrun, ⟨trail, hshown, htrail⟩, -⟩ :=
    run_alternating (m := started none 40) fourArguments 1 false hname hnext rfl rfl rfl rfl
      (by decide +kernel)
  refine ⟨t, ts, htokens, m', hrun, trail, ?_, ?_⟩
  · rw [hshown, hwords, List.append_assoc]
    rfl
  · rcases htrail with h | h | ⟨h, -⟩
    · exact Or.inl h
    · exact Or.inr h
    · exact absurd h hfull

end Machine

end Manpage
