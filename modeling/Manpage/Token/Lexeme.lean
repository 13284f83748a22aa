import Manpage.Escape
import Manpage.Token.Basic

/-!
# Lexemes of a chunk

Inside a chunk, a double quote stands alone, a backslash begins an escape, and everything between
is plain text. An escape extends over its argument, whose form depends on the command: two
characters after a parenthesis, a name between brackets, a sign and one character, or one
character. A name that is not closed runs to the end of the chunk.

The lexemes of a chunk, in order, spell out the chunk.

## Main definitions

* `Manpage.Lexeme` — a class and the characters in it.
* `Manpage.Lexeme.argument`, `Manpage.Lexeme.bracketed`, `Manpage.Lexeme.mnemonic`,
  `Manpage.Lexeme.escape` — the parts of an escape at the start of a text, and the rest of it.
* `Manpage.Lexeme.ofChunk` — the lexemes of a chunk.
-/

namespace Manpage

/-- Characters of a chunk that form one token, and the class of that token. -/
structure Lexeme where
  kind : TokenKind
  value : Text
deriving DecidableEq

namespace Lexeme

/-! ## Escapes -/

/-- A name up to the next closing bracket, or up to the end of the text where there is none. -/
def bracketed (t : Text) : List Lexeme × Text :=
  match t.dropWhile (· != ']') with
  | [] => ([⟨.argument, t⟩], [])
  | close :: rest => ([⟨.argument, t.takeWhile (· != ']')⟩, ⟨.closeBracket, [close]⟩], rest)

/-- The argument of an escape: two characters after a parenthesis, a name between brackets, a
sign and one character, or one character. -/
def argument : Text → List Lexeme × Text
  | [] => ([], [])
  | c :: t =>
    if c == '(' then ([⟨.openParen, [c]⟩, ⟨.argument, t.take 2⟩], t.drop 2)
    else if c == '[' then (⟨.openBracket, [c]⟩ :: (bracketed t).1, (bracketed t).2)
    else if c == '+' || c == '-' then ([⟨.argument, c :: t.take 1⟩], t.drop 1)
    else ([⟨.argument, [c]⟩], t)

/-- A character name of two characters; at the end of the text it may be shorter, and an empty one
is left out. -/
def mnemonic (t : Text) : List Lexeme × Text :=
  match t with
  | [] => ([], [])
  | _ :: _ => ([⟨.argument, t.take 2⟩], t.drop 2)

/-- What follows the command of an escape of the given kind. -/
def afterCommand (e : Escape) (t : Text) : List Lexeme × Text :=
  match e with
  | .font | .ignored | .string => argument t
  | .special true => bracketed t
  | .special false => mnemonic t
  | .literal _ | .comment | .unsupported => ([], t)

/-- What follows a backslash: the command and its argument. A backslash at the end stands alone. -/
def escape : Text → List Lexeme × Text
  | [] => ([], [])
  | c :: t =>
    let following := afterCommand (Escape.ofCommand [c]) t
    (⟨.command, [c]⟩ :: following.1, following.2)

/-! ## An escape never lengthens what is left -/

/-- What is left behind a name in brackets is no longer than the text. -/
theorem length_bracketed_le (t : Text) : (bracketed t).2.length ≤ t.length := by
  have h := (List.dropWhile_sublist (l := t) (· != ']')).length_le
  unfold bracketed
  split
  · simp
  · rename_i heq
    rw [heq] at h
    simp at h ⊢
    omega

/-- What is left behind an argument is no longer than the text, whatever the form of the argument.
-/
theorem length_argument_le (t : Text) : (argument t).2.length ≤ t.length := by
  cases t with
  | nil => simp [argument]
  | cons c t =>
    have := length_bracketed_le t
    simp only [argument, List.length_cons]
    split
    · simp only [List.length_drop]; omega
    · split
      · simp only; omega
      · split
        · simp only [List.length_drop]; omega
        · simp only; omega

/-- What is left behind the two characters of a name is no longer than the text. -/
theorem length_mnemonic_le (t : Text) : (mnemonic t).2.length ≤ t.length := by
  cases t with
  | nil => simp [mnemonic]
  | cons c t => simp only [mnemonic, List.length_drop]; omega

/-- What is left behind all that a command takes is no longer than the text. -/
theorem length_afterCommand_le (e : Escape) (t : Text) :
    (afterCommand e t).2.length ≤ t.length := by
  unfold afterCommand
  split
  · exact length_argument_le t
  · exact length_argument_le t
  · exact length_argument_le t
  · exact length_bracketed_le t
  · exact length_mnemonic_le t
  all_goals exact Nat.le_refl _

/-- What is left behind an escape is no longer than the text. This is why the reading of a chunk
ends. -/
theorem length_escape_le (t : Text) : (escape t).2.length ≤ t.length := by
  cases t with
  | nil => simp [escape]
  | cons c t =>
    have := length_afterCommand_le (Escape.ofCommand [c]) t
    simp [escape]
    omega

/-! ## Chunks -/

/-- A character that stands for itself wherever it is not part of an escape. -/
def isPlain (c : Char) : Bool :=
  c != '\\' && c != '"'

/-- The lexemes of a chunk that begins with neither a blank nor a macro name. -/
def ofChunk : Text → List Lexeme
  | [] => []
  | c :: t =>
    if c == '"' then ⟨.quote, [c]⟩ :: ofChunk t
    else if c == '\\' then ⟨.backslash, [c]⟩ :: (escape t).1 ++ ofChunk (escape t).2
    else ⟨.word, c :: t.takeWhile isPlain⟩ :: ofChunk (t.dropWhile isPlain)
termination_by t => t.length
decreasing_by
  · simp
  · have := length_escape_le t
    simp
    omega
  · have := (List.dropWhile_sublist (l := t) isPlain).length_le
    simp
    omega

end Lexeme

end Manpage
