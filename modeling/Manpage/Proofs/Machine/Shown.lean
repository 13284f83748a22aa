import Manpage.Proofs.Machine.Steady
import Manpage.Proofs.Page.Together

/-!
# What a machine shows

The texts that the instructions of a program show reach the page one after another, where output is
visible. The text of the page shows them in this order. A first, a second and a third part of a
program show texts of their own, and the text of the page falls into three parts accordingly, where
the second part shows one text, or all its texts while one word is open. The texts of that word
stand on one line with nothing between them.

## Main definitions

* `Manpage.Machine.shown` — the texts that a program puts on the page.
* `Manpage.Machine.ShowsWhole` — a text in which a part of a program is shown in one piece.
* `Manpage.Instr.isInWord` — the instructions while a word is put together.

## Main results

* `Manpage.Machine.becomes_exec` — what becomes of the page.
* `Manpage.Machine.showsWhole_of_word` — the texts of one word are shown in one piece.
-/

namespace Manpage

variable {source : Text} {m : Machine} {i : Instr} {is js before own after : List Instr}

namespace Machine

/-! ## Texts that reach the page -/

/-- The text that an instruction shows, where it is visible. -/
def showsBy (m : Machine) : Instr → List Text
  | .emit text => if m.isVisible then [text] else []
  | _ => []

/-- The texts that a program puts on the page, in order. -/
def shown (m : Machine) : List Instr → List Text
  | [] => []
  | i :: is => m.showsBy i ++ (m.apply i).shown is

/-- No instructions show no texts. -/
@[simp] theorem shown_nil (m : Machine) : m.shown [] = [] := rfl

/-- Instructions show their texts one after another. -/
@[simp] theorem shown_cons (m : Machine) (i : Instr) (is : List Instr) :
    m.shown (i :: is) = m.showsBy i ++ (m.apply i).shown is := rfl

/-- Two programs show what the first shows, and then what the second shows on the machine that the
first leaves. -/
theorem shown_append (m : Machine) (is js : List Instr) :
    m.shown (is ++ js) = m.shown is ++ (m.exec is).shown js := by
  induction is generalizing m with
  | nil => rfl
  | cons i is ih => rw [List.cons_append, shown_cons, ih, shown_cons, exec_cons, List.append_assoc]

/-- Only the instruction for a text shows one. -/
theorem showsBy_of_not_isEmit (m : Machine) (h : i.isEmit = false) : m.showsBy i = [] := by
  cases i with
  | emit => exact Bool.noConfusion h
  | _ => rfl

/-- A program without texts shows none. -/
theorem shown_of_not_isEmit (m : Machine) (h : ∀ i ∈ is, i.isEmit = false) : m.shown is = [] := by
  induction is generalizing m with
  | nil => rfl
  | cons i is ih =>
    rw [shown_cons, showsBy_of_not_isEmit m (h i List.mem_cons_self), List.nil_append]
    exact ih (m.apply i) fun j hj => h j (List.mem_cons_of_mem i hj)

/-! ## What becomes of the page -/

/-- Output that shows no text shows none whether it is visible or hidden. -/
theorem becomes_output {f : Page → Page} (h : Page.Becomes m.page [] (f m.page)) :
    Page.Becomes m.page [] (m.output f).page := by
  unfold output
  split
  · exact h
  · exact Page.becomes_refl m.page

/-- What the instruction for a text does to the page shows the text, where output is visible. -/
theorem becomes_emit {t : Text} (ht : t.IsInkOf source) :
    Page.Becomes m.page (m.showsBy (.emit t)) (m.apply (.emit t)).page := by
  have happend := Page.becomes_append m.page (Or.inr ht.isInk)
  rw [Text.visible_of_isInk ht.isInk ht.ne_nil] at happend
  simp only [showsBy, apply, output]
  split
  · exact happend
  · exact Page.becomes_refl m.page

/-- Empty lines show nothing, however many they are. -/
theorem becomes_skipLines (p : Page) (n : Nat) : Page.Becomes p [] (skipLines n p) := by
  unfold skipLines
  split
  · exact Page.becomes_refl p
  · exact Page.becomes_breakLines p (n + 1)

/-- The end of a scope shows nothing. A word is completed, a style put back, or a line ended behind
a tag. -/
theorem becomes_closeScope (m : Machine) : Page.Becomes m.page [] m.closeScope.page := by
  unfold closeScope
  split
  · exact Page.becomes_refl m.page
  · exact Page.becomes_closeWord m.page
  · exact .sameLines ⟨rfl, rfl, rfl, rfl, rfl⟩
  · rename_i amount outer _
    have hindent : Page.Becomes m.page [] (indentBy amount m.page) :=
      .sameLines ⟨rfl, rfl, rfl, rfl, rfl⟩
    exact hindent.trans (becomes_output
      (m := { m with scopes := outer, page := indentBy amount m.page }) (Page.becomes_lineBreak _))

/-- **One instruction** puts on the page what it shows.

**Proof sketch.** By cases on the instruction. A text that is shown comes onto the page as ink, if
it is seen; blanks and breaks bring none; settings leave the lines the same. -/
theorem becomes_apply (hi : i.IsSound (Token.ofSource source)) :
    Page.Becomes m.page (m.showsBy i) (m.apply i).page := by
  have hsame : ∀ {q : Page}, m.page.SameLines q → Page.Becomes m.page [] q := .sameLines
  cases i with
  | consume | note | warn | enterSection | fault => exact Page.becomes_refl m.page
  | emit text => exact becomes_emit (IsShown.isInkOf hi)
  | space => exact becomes_output (Page.becomes_appendSpace m.page)
  | blank text =>
    obtain ⟨token, htoken, hk, rfl⟩ := hi
    have hblank := (Text.isBlankOf_of_mem htoken hk).isBlank
    refine becomes_output ?_
    split
    · have happend := Page.becomes_append m.page (Or.inl hblank)
      -- a blank text is put on the page, but nothing of it is visible
      rwa [Text.visible_of_isBlank hblank] at happend
    · exact Page.becomes_appendSpace m.page
  | beginLine =>
    simp only [apply]
    split
    · exact becomes_output (Page.becomes_lineBreak m.page)
    · exact Page.becomes_refl m.page
  | endLine =>
    simp only [apply]
    split
    · exact Page.becomes_refl m.page
    · exact becomes_output (Page.becomes_appendSpace m.page)
  | emptyLine =>
    refine becomes_output ?_
    split
    · exact .breakLine m.page
    · exact Page.becomes_blankLine m.page
  | lineBreak => exact becomes_output (Page.becomes_lineBreak m.page)
  | blankLine => exact becomes_output (Page.becomes_blankLine m.page)
  | skipLines count => exact becomes_output (becomes_skipLines m.page count)
  | openWord => exact Page.becomes_openWord m.page
  | openTag amount =>
    have hindent : Page.Becomes m.page [] { m.page with indent := 0 } :=
      hsame ⟨rfl, rfl, rfl, rfl, rfl⟩
    exact hindent.trans (becomes_output
      (m := m.onPage fun p => { p with indent := 0 }) (Page.becomes_lineBreak _))
  | closeScope => exact becomes_closeScope m
  | openStyle | setStyle | plainStyle | setNoFill | setIndent | paragraphIndent | forgetIndent
  | openMargin | closeMargins | clearMargins | sectionMargin =>
    exact hsame ⟨rfl, rfl, rfl, rfl, rfl⟩

/-- **A program** puts on the page what it shows. -/
theorem becomes_exec (his : ∀ i ∈ is, i.IsSound (Token.ofSource source)) :
    Page.Becomes m.page (m.shown is) (m.exec is).page := by
  induction is generalizing m with
  | nil => exact Page.becomes_refl m.page
  | cons i is ih =>
    exact (becomes_apply (his i List.mem_cons_self)).trans
      (ih fun j hj => his j (List.mem_cons_of_mem i hj))

end Machine

/-! ## Texts of one word -/

/-- An instruction that may come while a word is put together: a record, a change of style, a text
that is shown, or a fault. -/
def Instr.isInWord : Instr → Bool
  | .emit _ | .fault _ => true
  | i => i.isQuiet

namespace Machine

/-- One instruction puts the text that it shows into the open word. The instructions of a word show
a text, change the style or are records. -/
theorem exists_gathers_apply {w : OpenWord} (hi : i.isInWord = true)
    (hsound : i.IsSound (Token.ofSource source)) (hw : m.page.word = some w) :
    ∃ ps, m.page.Gathers ps (m.showsBy i) (m.apply i).page := by
  cases i with
  | consume | note | warn | setStyle | plainStyle | fault =>
    exact ⟨[], .of_sameLines ⟨rfl, rfl, rfl, rfl, rfl⟩⟩
  | emit text =>
    simp only [showsBy, apply, output]
    split
    · have hink := IsShown.isInkOf hsound
      exact ⟨_, .append hink.isInk hink.ne_nil hw⟩
    · exact ⟨[], .of_sameLines ⟨rfl, rfl, rfl, rfl, rfl⟩⟩
  | _ => exact Bool.noConfusion hi

/-- While a word is put together, the texts that are shown become its pieces. By induction on the
instructions; the pieces of later ones stand in front. -/
theorem exists_gathers_exec {w : OpenWord} (his : ∀ i ∈ is, i.isInWord = true)
    (hsound : ∀ i ∈ is, i.IsSound (Token.ofSource source)) (hw : m.page.word = some w) :
    ∃ ps, m.page.Gathers ps (m.shown is) (m.exec is).page := by
  induction is generalizing m w with
  | nil => exact ⟨[], .of_sameLines ⟨rfl, rfl, rfl, rfl, rfl⟩⟩
  | cons i is ih =>
    obtain ⟨ps, hfirst⟩ := exists_gathers_apply (his i List.mem_cons_self)
      (hsound i List.mem_cons_self) hw
    obtain ⟨qs, hmore⟩ := ih (fun j hj => his j (List.mem_cons_of_mem i hj))
      (fun j hj => hsound j (List.mem_cons_of_mem i hj)) (hfirst.word_eq w hw)
    exact ⟨qs ++ ps, hfirst.trans hmore⟩

/-! ## Parts of a program in the text of the page -/

/-- A machine without ink on its page and without an open word. -/
structure Begins (m : Machine) : Prop where
  proper : m.page.Proper
  inks_eq : m.page.inks = []
  holds : m.Holds (fun _ _ => True) .outside

/-- A machine on an empty page that has taken a source. -/
def started (requested : Option Section) (width : Int) : Machine :=
  { fresh (Page.ofWidth width) requested with consumed := true }

/-- A machine that is started begins with nothing on its page. -/
theorem begins_started (requested : Option Section) (width : Int) :
    (started requested width).Begins where
  proper := Page.proper_ofWidth width
  inks_eq := Page.inks_ofWidth width
  holds := ⟨⟨rfl, rfl, trivial⟩, List.not_mem_nil⟩

/-- Sound instructions leave a page proper. -/
theorem proper_exec (h : m.page.Proper) (his : ∀ i ∈ is, i.IsSound (Token.ofSource source)) :
    (m.exec is).page.Proper :=
  (becomes_exec his).proper h

namespace Begins

/-- The ink on the page is what was shown. -/
theorem inks_exec (h : m.Begins) (his : ∀ i ∈ is, i.IsSound (Token.ofSource source)) :
    (m.exec is).page.inks = m.shown is := by
  rw [(becomes_exec his).inks_eq h.proper, h.inks_eq, List.nil_append]

/-- The texts that a sound program shows are ink. -/
theorem isInk_of_mem_shown (h : m.Begins) (his : ∀ i ∈ is, i.IsSound (Token.ofSource source))
    {t : Text} (ht : t ∈ m.shown is) : t.isInk = true := by
  rw [← h.inks_exec his] at ht
  exact ((proper_exec h.proper his).isInk_of_mem_inks ht).1

/-- No word is open where one is opened. The phases of the program say so, for a word may be opened
outside of words only. -/
theorem word_eq_none (h : m.Begins) (hcarries : Carries (Token.ofSource source) .outside
    (before ++ .openWord :: after) .outside) : (m.exec before).page.word = none := by
  obtain ⟨φ, hbefore, hrest⟩ := WordPhase.exists_after_of_append hcarries.after_eq
  obtain rfl : φ = .outside := by
    cases φ with
    | outside => rfl
    | inside | spaced => simp [WordPhase.after, WordPhase.next] at hrest
  have hsteady : Steady source fun _ _ => True := by
    constructor <;> simp
  have hholds := h.holds.exec hsteady
    ⟨hbefore, fun i hi => hcarries.sound i (List.mem_append_left _ hi)⟩
  exact hholds.1.word_eq

end Begins

/-- A text that shows what three parts of a program show, one after another, the second part in one
piece: its texts stand on one line, with nothing between them. -/
def ShowsWhole (m : Machine) (before own after : List Instr) (text : Text) : Prop :=
  ∃ a s b : Text, text = a ++ (s ++ b) ∧ Text.Shows (m.shown before) a ∧
    Text.Joins ((m.exec before).shown own) s ∧ '\n' ∉ s ∧
    Text.Shows ((m.exec (before ++ own)).shown after) b

/-- A program in three parts shows what each of them shows on the machine that those before it
leave. -/
theorem shown_parts (m : Machine) (before own after : List Instr) :
    m.shown (before ++ (own ++ after)) =
      m.shown before ++ ((m.exec before).shown own ++ (m.exec (before ++ own)).shown after) := by
  rw [shown_append, shown_append, exec_append]

/-- The texts of a part are on one line, if nothing stands between them. -/
theorem Begins.newline_not_mem {s : Text} (h : m.Begins)
    (hsound : ∀ i ∈ before ++ (own ++ after), i.IsSound (Token.ofSource source))
    (hs : Text.Joins ((m.exec before).shown own) s) : '\n' ∉ s := by
  refine hs.newline_not_mem fun t ht => h.isInk_of_mem_shown hsound ?_
  rw [shown_parts]
  exact List.mem_append_right _ (List.mem_append_left _ ht)

/-- A part of a program that shows one text at most shows it in one piece. -/
theorem showsWhole_of_length_le_one (h : m.Begins)
    (hsound : ∀ i ∈ before ++ (own ++ after), i.IsSound (Token.ofSource source))
    (hown : ((m.exec before).shown own).length ≤ 1) :
    m.ShowsWhole before own after (m.exec (before ++ (own ++ after))).page.text := by
  have hshows := (proper_exec h.proper hsound).shows_text
  rw [h.inks_exec hsound, shown_parts] at hshows
  obtain ⟨a, s, b, htext, ha, hs, hb⟩ := hshows.exists_joins hown
  exact ⟨a, s, b, htext, ha, hs, h.newline_not_mem hsound hs, hb⟩

/-- The texts of a word become its pieces, from the machine that opens it to the one behind it.

**Proof sketch.** No word is open before it, so that one is opened. The instructions in the word
show texts and change the style, and each text that is seen goes into the word. -/
theorem Begins.exists_gathers {pre inner : List Instr} (h : m.Begins)
    (hcarries : Carries (Token.ofSource source) .outside
      (before ++ (pre ++ .openWord :: inner ++ after)) .outside)
    (hpre : ∀ i ∈ pre, i.isEmit = false) (hinner : ∀ i ∈ inner, i.isInWord = true) :
    (m.exec (before ++ pre)).page.word = none ∧
      ∃ ps, (m.exec (before ++ pre)).page.openWord.Gathers ps
        ((m.exec before).shown (pre ++ .openWord :: inner))
        (m.exec (before ++ (pre ++ .openWord :: inner))).page := by
  have hsplit : before ++ (pre ++ .openWord :: inner ++ after) =
      (before ++ pre) ++ .openWord :: (inner ++ after) := by
    simp only [List.append_assoc, List.cons_append]
  rw [hsplit] at hcarries
  have hword := h.word_eq_none hcarries
  have hsound : ∀ i ∈ inner, i.IsSound (Token.ofSource source) := fun i hi =>
    hcarries.sound i (List.mem_append_right _
      (List.mem_cons_of_mem _ (List.mem_append_left _ hi)))
  have hopen : ((m.exec (before ++ pre)).apply .openWord).page.word =
      some ⟨[], !(m.exec (before ++ pre)).page.isLineBlank⟩ :=
    congrArg Page.word (Page.openWord_of_none hword)
  obtain ⟨ps, hgathers⟩ := exists_gathers_exec hinner hsound hopen
  have hown : (m.exec before).shown (pre ++ .openWord :: inner) =
      ((m.exec (before ++ pre)).apply .openWord).shown inner := by
    rw [shown_append, shown_of_not_isEmit _ hpre, ← exec_append]
    rfl
  have hbehind : m.exec (before ++ (pre ++ .openWord :: inner)) =
      ((m.exec (before ++ pre)).apply .openWord).exec inner := by
    rw [← List.append_assoc, exec_append, exec_cons]
  refine ⟨hword, ps, ?_⟩
  rw [hown, hbehind]
  exact hgathers

/-- **The texts of one word are shown in one piece.**

**Proof sketch.** No word is open where the word is opened, so it begins with no pieces, behind all
ink that is on the page. The texts become its pieces, which stay together in whatever becomes of the
page. -/
theorem showsWhole_of_word {pre inner : List Instr} (h : m.Begins)
    (hcarries : Carries (Token.ofSource source) .outside
      (before ++ (pre ++ .openWord :: inner ++ after)) .outside)
    (hpre : ∀ i ∈ pre, i.isEmit = false) (hinner : ∀ i ∈ inner, i.isInWord = true) :
    m.ShowsWhole before (pre ++ .openWord :: inner) after
      (m.exec (before ++ (pre ++ .openWord :: inner ++ after))).page.text := by
  have hsound := hcarries.sound
  by_cases hone : ((m.exec before).shown (pre ++ .openWord :: inner)).length ≤ 1
  · exact showsWhole_of_length_le_one h hsound hone
  obtain ⟨hword, ps, hgathers⟩ := h.exists_gathers hcarries hpre hinner
  have hne : ps ≠ [] := by
    rintro rfl
    rw [← hgathers.texts_eq] at hone
    exact hone (Nat.zero_le 1)
  -- the ink on the page where the word is opened
  have hinks : (m.exec (before ++ pre)).page.inks = m.shown before := by
    rw [h.inks_exec fun i hi => hsound i (by simp only [List.mem_append] at hi ⊢; tauto),
      shown_append, shown_of_not_isEmit _ hpre, List.append_nil]
  have hinside : (m.exec (before ++ (pre ++ .openWord :: inner))).page.Proper :=
    proper_exec h.proper fun i hi => hsound i
      (by rw [← List.append_assoc]; exact List.mem_append_left _ hi)
  obtain ⟨a, s, b, htext, ha, hs, hb⟩ := Page.exists_text_eq_of_gathers hword hgathers hne hinside
    (becomes_exec fun i hi => hsound i
      (List.mem_append_right _ (List.mem_append_right _ hi)))
  rw [hinks] at ha
  refine ⟨a, s, b, ?_, ha, hs, h.newline_not_mem hsound hs, hb⟩
  rw [← htext, ← exec_append, ← List.append_assoc before]

end Machine

end Manpage
