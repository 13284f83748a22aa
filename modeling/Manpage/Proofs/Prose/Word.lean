import Manpage.Proofs.Program.Word

/-!
# Words of prose

A word of prose is written with characters that stand for themselves, with escapes that stand for a
character, and with escapes that stand for nothing.

## Main definitions

* `Manpage.Prose.Item`, `Manpage.Prose.Word` — the parts of a word, and words.
* `Manpage.Prose.Word.source`, `Manpage.Prose.Word.meaning` — what is written for a word, and what
  it stands for.

## Main results

* `Manpage.Prose.Word.reads` — a word is read as what it stands for.
-/

namespace Manpage.Prose

/-! ## Parts of words -/

/-- A character other than a blank. -/
abbrev Ink :=
  { c : Char // isSpace c = false }

/-- A name between brackets. -/
abbrev Name :=
  { t : Text // t.isInk = true ∧ ']' ∉ t }

/-- The argument of an escape. -/
inductive Argument where
  /-- two characters behind a parenthesis -/
  | pair (x y : Ink)
  /-- a name between brackets -/
  | bracketed (name : Name)
  /-- a sign and a character -/
  | signed (sign : Char) (hsign : sign ∈ ['+', '-']) (c : Ink)
  /-- another character -/
  | single (c : Ink) (hc : c.1 ∉ ['(', '[', '+', '-'])

/-- A part of a word. -/
inductive Item where
  /-- a character that stands for itself -/
  | plain (c : Ink) (hc : c.1 ≠ '\\')
  /-- a backslash, written as two or as the escape for it -/
  | backslash (command : Char) (hcommand : command ∈ ['\\', 'e'])
  /-- the escape for a hyphen -/
  | hyphen
  /-- the apostrophe by its name, of two characters or between brackets -/
  | apostrophe (bracketed : Bool)
  /-- another name of two characters, which stands for nothing -/
  | mnemonic (x y : Ink) (hname : [x.1, y.1] ≠ ['c', 'q'])
  /-- another name between brackets, which stands for nothing -/
  | named (name : Name) (hname : name.1 ≠ ['c', 'q'])
  /-- a colour, a size or a string, which stands for nothing -/
  | parameter (command : Char) (hcommand : command ∈ ['m', 's', '*']) (argument : Argument)
  /-- an escape without a meaning -/
  | unknown (command : Ink)
      (hcommand : command.1 ∉ ['f', 'm', 's', '*', '(', '[', '-', 'e', '\\', '"', '#'])

/-- What is written for an argument. -/
def Argument.source : Argument → Text
  | pair x y => ['(', x.1, y.1]
  | bracketed name => '[' :: name.1 ++ [']']
  | signed sign _ c => [sign, c.1]
  | single c _ => [c.1]

namespace Item

/-- What is written for a part of a word. -/
def source : Item → Text
  | plain c _ => [c.1]
  | backslash command _ => ['\\', command]
  | hyphen => ['\\', '-']
  | apostrophe false => ['\\', '(', 'c', 'q']
  | apostrophe true => ['\\', '[', 'c', 'q', ']']
  | mnemonic x y _ => ['\\', '(', x.1, y.1]
  | named name _ => '\\' :: '[' :: name.1 ++ [']']
  | parameter command _ argument => '\\' :: command :: argument.source
  | unknown command _ => ['\\', command.1]

/-- What a part of a word stands for. -/
def meaning : Item → Text
  | plain c _ => [c.1]
  | backslash _ _ => ['\\']
  | hyphen => ['-']
  | apostrophe _ => ['\'']
  | mnemonic _ _ _ | named _ _ | parameter _ _ _ | unknown _ _ => []

end Item

/-- A word: one part at least. -/
structure Word where
  items : List Item
  ne_nil : items ≠ []

/-- What is written for a word. -/
def Word.source (w : Word) : Text :=
  w.items.flatMap Item.source

/-- What a word stands for, which may be nothing. -/
def Word.meaning (w : Word) : Text :=
  w.items.flatMap Item.meaning

/-! ## Reading a part of a word -/

variable {u v : Text}

/-- A name between brackets is read up to the closing bracket. The first closing bracket ends it. -/
theorem bracketed_append {name : Text} (h : ']' ∉ name) (u : Text) :
    Lexeme.bracketed (name ++ ']' :: u) =
      ([⟨.argument, name⟩, ⟨.closeBracket, [']']⟩], u) := by
  have hall : ∀ c ∈ name, (c != ']') = true := by
    intro c hc
    rw [bne_iff_ne]
    rintro rfl
    exact h hc
  have hdrop : (name ++ ']' :: u).dropWhile (· != ']') = ']' :: u := by
    rw [List.dropWhile_append_of_pos hall]
    rfl
  have htake : (name ++ ']' :: u).takeWhile (· != ']') = name := by
    rw [List.takeWhile_append_of_pos hall]
    exact List.append_nil name
  unfold Lexeme.bracketed
  rw [hdrop, htake]

/-- The lexemes of an argument. -/
def Argument.lexemes : Argument → List Lexeme
  | pair x y => [⟨.openParen, ['(']⟩, ⟨.argument, [x.1, y.1]⟩]
  | bracketed name => [⟨.openBracket, ['[']⟩, ⟨.argument, name.1⟩, ⟨.closeBracket, [']']⟩]
  | signed sign _ c => [⟨.argument, [sign, c.1]⟩]
  | single c _ => [⟨.argument, [c.1]⟩]

/-- An argument is read whole, whatever follows it. Its form says where it ends. -/
theorem Argument.argument_append (a : Argument) (u : Text) :
    Lexeme.argument (a.source ++ u) = (a.lexemes, u) := by
  cases a with
  | pair x y => rfl
  | bracketed name =>
    have h := bracketed_append name.2.2 u
    simp only [source, List.cons_append, List.append_assoc, List.nil_append, Lexeme.argument, h]
    rfl
  | signed sign hsign c =>
    simp only [List.mem_cons, List.not_mem_nil, or_false] at hsign
    rcases hsign with rfl | rfl <;> rfl
  | single c hc =>
    simp only [List.mem_cons, List.not_mem_nil, or_false, not_or] at hc
    simp [source, Lexeme.argument, lexemes, hc]

/-- Commands that have no meaning. -/
theorem ofCommand_eq_unsupported {command : Char}
    (h : command ∉ ['f', 'm', 's', '*', '(', '[', '-', 'e', '\\', '"', '#']) :
    Escape.ofCommand [command] = .unsupported := by
  unfold Escape.ofCommand
  split <;> first | rfl | simp_all

/-- A name other than that of the apostrophe. -/
theorem specialCharacter?_eq_none {name : Text} (h : name ≠ ['c', 'q']) :
    specialCharacter? name = none := by
  unfold specialCharacter?
  split
  · exact absurd rfl h
  · rfl

/-- Records only, for an escape that stands for nothing. -/
theorem isWord_nil_of_records {is : List Instr} (h : ∀ i ∈ is, i.isRecord = true) :
    IsWord [] is := by
  induction is with
  | nil => exact IsWord.nil
  | cons i is ih =>
    exact (ih fun j hj => h j (List.mem_cons_of_mem i hj)).record (h i List.mem_cons_self)

/-- Records before a text that is shown. -/
theorem isWord_of_records (is : List Instr) {text : Text} (h : ∀ i ∈ is, i.isRecord = true)
    (hne : text ≠ []) (hink : text.isInk = true) : IsWord text (is ++ [.emit text]) := by
  have hemit := (isWord_nil_of_records h).append (IsWord.emit hne hink IsWord.nil)
  rwa [List.nil_append, List.append_nil] at hemit

section Frames

/-! What the frames of an escape do with its parts. -/

variable (isolating : Bool) (stack : List Frame) (value : Text) (number column : Int)

/-- In a unit, a backslash begins an escape. -/
theorem feed_backslash : feed isolating (.unit :: stack)
    ⟨.backslash, value, false, number, column⟩ =
    ⟨[.consume ⟨.backslash, value, false, number, column⟩], .escape :: .unit :: stack⟩ := rfl

/-- The command of an escape decides what becomes of it, and how the escape goes on. -/
theorem feed_command : feed isolating (.escape :: stack) ⟨.command, value, false, number, column⟩ =
    ⟨(Step.command ⟨.command, value, false, number, column⟩).out,
      (Step.command ⟨.command, value, false, number, column⟩).frames ++ stack⟩ := rfl

/-- The name of a character puts the character, if it is known, and waits for the closing bracket if
it has been opened by one. -/
theorem feed_name (command : Token) (bracketed : Bool) :
    feed isolating (.characterName command bracketed :: stack)
        ⟨.argument, value, false, number, column⟩ =
      ⟨.consume ⟨.argument, value, false, number, column⟩ :: characterNamed command value,
        (if bracketed then [.closingBracket] else []) ++ stack⟩ := rfl

/-- The closing bracket of a name is taken off and does nothing. -/
theorem feed_closeBracket : feed isolating (.closingBracket :: stack)
    ⟨.closeBracket, value, false, number, column⟩ =
      ⟨[.consume ⟨.closeBracket, value, false, number, column⟩], stack⟩ := rfl

/-- A parenthesis opens an argument of two characters. -/
theorem feed_openParen (a : ArgumentUse) : feed isolating (.escapeArgument a :: stack)
    ⟨.openParen, value, false, number, column⟩ =
      ⟨[.consume ⟨.openParen, value, false, number, column⟩],
        .openedArgument a false :: stack⟩ := rfl

/-- A bracket opens an argument that another bracket closes. -/
theorem feed_openBracket (a : ArgumentUse) : feed isolating (.escapeArgument a :: stack)
    ⟨.openBracket, value, false, number, column⟩ =
      ⟨[.consume ⟨.openBracket, value, false, number, column⟩],
        .openedArgument a true :: stack⟩ := rfl

/-- A bare argument is put to its use and ends the escape. -/
theorem feed_argument (a : ArgumentUse) : feed isolating (.escapeArgument a :: stack)
    ⟨.argument, value, false, number, column⟩ =
      ⟨.consume ⟨.argument, value, false, number, column⟩ :: a.settle (some value), stack⟩ := rfl

/-- An argument behind its opening is put to its use, and waits for the closing bracket if a bracket
has opened it. -/
theorem feed_opened (a : ArgumentUse) (bracketed : Bool) :
    feed isolating (.openedArgument a bracketed :: stack)
        ⟨.argument, value, false, number, column⟩ =
      ⟨.consume ⟨.argument, value, false, number, column⟩ :: a.settle (some value),
        (if bracketed then [.closingBracket] else []) ++ stack⟩ := rfl

end Frames

/-- An escape for a text. The backslash and the command are recorded, and the text is shown. -/
theorem reads_literal {command : Char} (text : Text)
    (hcommand : Escape.ofCommand [command] = .literal text) (hne : text ≠ [])
    (hink : text.isInk = true) (h : Reads u v) :
    Reads ('\\' :: command :: u) (text ++ v) := by
  refine Reads.escape [command] text [⟨.command, [command]⟩] ?_ ?_ h
  · intro u
    simp [Lexeme.escape, hcommand, Lexeme.afterCommand]
  · intro isolating below number column
    simp only [Token.place, feedAll, feed_backslash, feed_command, Step.command, hcommand]
    exact ⟨isWord_of_records [.consume _, .consume _] (by simp [Instr.isRecord]) hne hink,
      rfl⟩

/-- An escape without a meaning. -/
theorem reads_unknown {command : Char} (hcommand : Escape.ofCommand [command] = .unsupported)
    (h : Reads u v) : Reads ('\\' :: command :: u) v := by
  refine Reads.escape [command] [] [⟨.command, [command]⟩] ?_ ?_ h
  · intro u
    simp [Lexeme.escape, hcommand, Lexeme.afterCommand]
  · intro isolating below number column
    simp only [Token.place, feedAll, feed_backslash, feed_command, Step.command, hcommand]
    exact ⟨isWord_nil_of_records (by simp [Instr.isRecord]), rfl⟩

/-- The instructions for a name: a text is shown, or there are records only. The name is in the
table, or is warned of. -/
theorem isWord_characterNamed {name text : Text} (command : Token)
    (hname : specialCharacter? name = some text ∧ text ≠ [] ∧ text.isInk = true ∨
      specialCharacter? name = none ∧ text = []) : IsWord text (characterNamed command name) := by
  unfold characterNamed
  rcases hname with ⟨hsome, hne, hink⟩ | ⟨hnone, rfl⟩
  · rw [hsome]
    exact isWord_of_records [] (by simp) hne hink
  · rw [hnone]
    exact isWord_nil_of_records (by simp [Instr.isRecord])

/-- A name of two characters. Backslash, command and name are recorded before the text is shown. -/
theorem reads_mnemonic {x y : Char} {text : Text}
    (hname : specialCharacter? [x, y] = some text ∧ text ≠ [] ∧ text.isInk = true ∨
      specialCharacter? [x, y] = none ∧ text = []) (h : Reads u v) :
    Reads ('\\' :: '(' :: x :: y :: u) (text ++ v) := by
  refine Reads.escape ['(', x, y] text [⟨.command, ['(']⟩, ⟨.argument, [x, y]⟩]
    (fun _ => rfl) ?_ h
  intro isolating below number column
  simp only [Token.place, feedAll, feed_backslash, feed_command, Step.command, Escape.ofCommand,
    List.cons_append, List.nil_append, feed_name, List.append_nil]
  refine ⟨?_, rfl⟩
  exact (((isWord_characterNamed _ hname).record rfl).record rfl).record rfl

/-- A name between brackets. The closing bracket is recorded behind the text that is shown. -/
theorem reads_named {name text : Text} (hclose : ']' ∉ name)
    (hname : specialCharacter? name = some text ∧ text ≠ [] ∧ text.isInk = true ∨
      specialCharacter? name = none ∧ text = []) (h : Reads u v) :
    Reads ('\\' :: '[' :: (name ++ [']']) ++ u) (text ++ v) := by
  refine Reads.escape ('[' :: (name ++ [']'])) text
    [⟨.command, ['[']⟩, ⟨.argument, name⟩, ⟨.closeBracket, [']']⟩] ?_ ?_ h
  · intro u
    simp [Lexeme.escape, Lexeme.afterCommand, Escape.ofCommand, bracketed_append hclose]
  · intro isolating below number column
    simp only [Token.place, feedAll, feed_backslash, feed_command, Step.command, Escape.ofCommand,
      List.cons_append, List.nil_append, feed_name, if_true, feed_closeBracket, List.append_nil]
    refine ⟨?_, trivial⟩
    exact IsWord.record rfl (IsWord.record rfl (IsWord.record rfl
      ((isWord_characterNamed _ hname).append_record rfl)))

/-- The argument of an escape that stands for nothing: records only.

**Proof sketch.** By cases on the form of the argument: it is opened by a parenthesis or a bracket,
or not, and its text is taken as one token. Its use brings records only. -/
theorem Argument.isWord_feedAll (a : Argument) {use : ArgumentUse}
    (huse : ∀ argument, ∀ i ∈ use.settle argument, i.isRecord = true) (isolating : Bool)
    (below : List Frame) (number column : Int) :
    let r := feedAll isolating (.escapeArgument use :: below)
      (Token.place false number column a.lexemes)
    IsWord [] r.out ∧ r.frames = below := by
  have hsettle : ∀ argument, IsWord [] (use.settle argument) := fun argument =>
    isWord_nil_of_records (huse argument)
  cases a with
  | pair x y =>
    simp only [lexemes, Token.place, feedAll, feed_openParen, feed_opened, List.append_nil]
    exact ⟨((hsettle _).record rfl).record rfl, rfl⟩
  | bracketed name =>
    simp only [lexemes, Token.place, feedAll, feed_openBracket, feed_opened, if_true,
      List.singleton_append, feed_closeBracket, List.append_nil]
    exact ⟨(((hsettle _).append_record rfl).record rfl).record rfl, trivial⟩
  | signed sign _ c =>
    simp only [lexemes, Token.place, feedAll, feed_argument, List.append_nil]
    exact ⟨(hsettle _).record rfl, trivial⟩
  | single c _ =>
    simp only [lexemes, Token.place, feedAll, feed_argument, List.append_nil]
    exact ⟨(hsettle _).record rfl, trivial⟩

/-- The command of an escape that takes an argument and stands for nothing. The argument is ignored,
or warned of. -/
theorem exists_use_of_mem {t : Token} {command : Char} (ht : t.value = [command])
    (h : command ∈ ['m', 's', '*']) :
    ∃ use : ArgumentUse, (∀ argument, ∀ i ∈ use.settle argument, i.isRecord = true) ∧
      Step.command t = ⟨[.consume t], [.escapeArgument use]⟩ := by
  unfold Step.command
  rw [ht]
  simp only [List.mem_cons, List.not_mem_nil, or_false] at h
  rcases h with rfl | rfl | rfl
  · exact ⟨.ignored, by simp [ArgumentUse.settle], rfl⟩
  · exact ⟨.ignored, by simp [ArgumentUse.settle], rfl⟩
  · exact ⟨.string t, by simp [ArgumentUse.settle, Instr.isRecord], rfl⟩

/-- What follows the command of such an escape. -/
theorem afterCommand_of_mem {command : Char} (h : command ∈ ['m', 's', '*']) (u : Text) :
    Lexeme.afterCommand (Escape.ofCommand [command]) u = Lexeme.argument u := by
  simp only [List.mem_cons, List.not_mem_nil, or_false] at h
  rcases h with rfl | rfl | rfl <;> rfl

/-- An escape that takes an argument and stands for nothing. All of its tokens are recorded, and so
is the warning where there is one. -/
theorem reads_parameter {command : Char} (hcommand : command ∈ ['m', 's', '*']) (a : Argument)
    (h : Reads u v) : Reads ('\\' :: command :: a.source ++ u) v := by
  refine Reads.escape (command :: a.source) [] (⟨.command, [command]⟩ :: a.lexemes) ?_ ?_ h
  · intro u
    simp only [List.cons_append, Lexeme.escape, afterCommand_of_mem hcommand, a.argument_append]
  · intro isolating below number column
    simp only [Token.place, feedAll_cons, feed_backslash, feed_command]
    obtain ⟨use, huse, hstep⟩ := exists_use_of_mem
      (t := ⟨.command, [command], false, number, column + (['\\'] : Text).length⟩) rfl hcommand
    obtain ⟨his, hframes⟩ := a.isWord_feedAll huse isolating (.unit :: below) number
      (column + (['\\'] : Text).length + ([command] : Text).length)
    rw [hstep]
    exact ⟨(his.record rfl).record rfl, hframes⟩

/-! ## Words -/

/-- A part of a word is read as what it stands for.

**Proof sketch.** By cases on the part, each with the rest of the word behind it. Characters are
shown, the escapes for characters show what they stand for, and those that stand for nothing bring
records. -/
theorem Item.reads (i : Item) (h : Reads u v) : Reads (i.source ++ u) (i.meaning ++ v) := by
  cases i with
  | plain c hc =>
    by_cases hquote : c.1 = '"'
    · simp only [source, meaning, hquote]
      exact h.quote
    · refine Reads.plain ?_ c.2 h
      simp [Lexeme.isPlain, hquote, hc]
  | backslash command hcommand =>
    simp only [List.mem_cons, List.not_mem_nil, or_false] at hcommand
    rcases hcommand with rfl | rfl
    · exact reads_literal ['\\'] rfl (by simp) (by decide) h
    · exact reads_literal ['\\'] rfl (by simp) (by decide) h
  | hyphen => exact reads_literal ['-'] rfl (by simp) (by decide) h
  | apostrophe bracketed =>
    have hname : specialCharacter? ['c', 'q'] = some ['\''] ∧ (['\''] : Text) ≠ [] ∧
        Text.isInk ['\''] = true := ⟨rfl, by simp, by decide⟩
    cases bracketed with
    | false => exact reads_mnemonic (Or.inl hname) h
    | true => exact reads_named (by decide) (Or.inl hname) h
  | mnemonic x y hname =>
    exact reads_mnemonic (Or.inr ⟨specialCharacter?_eq_none hname, rfl⟩) h
  | named name hname =>
    exact reads_named name.2.2 (Or.inr ⟨specialCharacter?_eq_none hname, rfl⟩) h
  | parameter command hcommand argument => exact reads_parameter hcommand argument h
  | unknown command hcommand => exact reads_unknown (ofCommand_eq_unsupported hcommand) h

/-- **A word is read as what it stands for.** -/
theorem Word.reads (w : Word) : Reads w.source w.meaning := by
  unfold source meaning
  induction w.items with
  | nil => exact Reads.nil
  | cons i items ih => exact i.reads ih

/-- The characters that mark the parts of an escape. -/
theorem isSpace_mark :
    ∀ c ∈ ['\\', '(', '[', ']', '+', '-', 'c', 'q', 'm', 's', '*', 'e'], isSpace c = false :=
  Text.isInk_iff.mp rfl

/-- What is written for an argument is ink. By cases on its form, each with marks that are ink. -/
theorem Argument.isInk_source (a : Argument) : a.source.isInk = true := by
  cases a with
  | pair x y => simp [source, x.2, y.2, isSpace_mark]
  | bracketed name => simp [source, name.2.1, isSpace_mark]
  | signed sign hsign c =>
    have hink : isSpace sign = false := by
      refine isSpace_mark sign ?_
      simp only [List.mem_cons, List.not_mem_nil, or_false] at hsign ⊢
      tauto
    simp [source, hink, c.2]
  | single c _ => simp [source, c.2]

namespace Item

/-- What is written for a part of a word is ink. By cases on the part, each with marks that are ink.
-/
theorem isInk_source (i : Item) : i.source.isInk = true := by
  cases i with
  | plain c _ => simp [source, c.2]
  | backslash command h =>
    simp only [List.mem_cons, List.not_mem_nil, or_false] at h
    rcases h with rfl | rfl <;> simp [source, isSpace_mark]
  | hyphen => simp [source, isSpace_mark]
  | apostrophe bracketed => cases bracketed <;> simp [source, isSpace_mark]
  | mnemonic x y _ => simp [source, x.2, y.2, isSpace_mark]
  | named name _ => simp [source, name.2.1, isSpace_mark]
  | parameter command h argument =>
    simp only [List.mem_cons, List.not_mem_nil, or_false] at h
    rcases h with rfl | rfl | rfl <;> simp [source, argument.isInk_source, isSpace_mark]
  | unknown command _ => simp [source, command.2, isSpace_mark]

/-- Something is written for each part of a word, also where it stands for nothing. -/
theorem source_ne_nil (i : Item) : i.source ≠ [] := by
  cases i with
  | apostrophe bracketed => cases bracketed <;> simp [source]
  | _ => simp [source]

end Item

/-- What is written for a word is ink. -/
theorem Word.isInk_source (w : Word) : w.source.isInk = true := by
  unfold source
  induction w.items with
  | nil => rfl
  | cons i items ih => rw [List.flatMap_cons, Text.isInk_append, i.isInk_source, ih, Bool.and_self]

/-- Something is written for a word. -/
theorem Word.source_ne_nil (w : Word) : w.source ≠ [] := by
  obtain ⟨i, items, heq⟩ := List.exists_cons_of_ne_nil w.ne_nil
  unfold source
  rw [heq, List.flatMap_cons]
  exact List.append_ne_nil_of_left_ne_nil i.source_ne_nil _

end Manpage.Prose
