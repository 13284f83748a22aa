import Manpage.Command.Files
import Manpage.Proofs.Text.Utf8
import Mathlib.Tactic.SplitIfs

/-!
# Files that are written

A file in sight that is written is read as it was written, and no other file changes. A path leads
to the same place before and after, since a file that is written never takes a directory away.

## Main definitions

* `Manpage.Tree.Receives` — a file has received a text.

## Main results

* `Manpage.Tree.read_put` — what is written is read.
* `Manpage.Tree.exists_receives_of_write` — what a write does.
-/

namespace Manpage.Tree

variable {t before after : Tree} {place q : Place} {p : Path} {bytes : List UInt8} {text : Text}

/-! ## Contents -/

/-- Files looked up after one was replaced or added. By induction on the files, of which the first
with the name is replaced. -/
theorem lookup_putFile (names q : List Text) (bytes : List UInt8)
    (files : List (List Text × List UInt8)) :
    (putFile names bytes files).lookup q =
      if q == names then some bytes else files.lookup q := by
  induction files with
  | nil => cases hq : q == names <;> simp [putFile, List.lookup_cons, List.lookup_nil, hq]
  | cons f more ih =>
    obtain ⟨name, contents⟩ := f
    by_cases hname : name = names
    · cases hq : q == names <;> simp [putFile, List.lookup_cons, hname, hq]
    · cases hq : q == name with
      | false => simp [putFile, List.lookup_cons, hname, hq, ih]
      | true => simp [putFile, hname, eq_of_beq hq]

/-- The contents of a file in sight after it was put there. -/
theorem contents?_put_self (hhere : place.base = .here) :
    (t.put place bytes).contents? place = some bytes := by
  simp [put, contents?, hhere, lookup_putFile]

/-- The contents of any other file stay. -/
theorem contents?_put_of_ne (hq : q ≠ place) :
    (t.put place bytes).contents? q = t.contents? q := by
  obtain ⟨base, names⟩ := place
  obtain ⟨qbase, qnames⟩ := q
  cases base <;> cases qbase <;>
    simp_all [put, contents?, lookup_putFile]

/-! ## Directories -/

/-- The files after one was replaced or added are those before, by name, and the one. By induction
on the files. -/
theorem any_putFile (names : List Text) (bytes : List UInt8) (test : List Text → Bool)
    (files : List (List Text × List UInt8)) :
    (putFile names bytes files).any (fun f => test f.1) =
      (test names || files.any fun f => test f.1) := by
  induction files with
  | nil => rfl
  | cons f more ih =>
    by_cases hf : f.1 = names
    · simp [putFile, hf]
    · simp [putFile, hf, ih, Bool.or_left_comm]

/-- A directory stays one. -/
theorem isDirectory_put (h : t.isDirectory q = true) :
    (t.put place bytes).isDirectory q = true := by
  obtain ⟨base, names⟩ := q
  cases hbase : place.base with
  | here =>
    cases base with
    | here =>
      -- what lies in the directory still does, and perhaps one file more
      have hany := any_putFile place.names bytes
        (fun n => n != names && names.isPrefixOf n) t.files
      simp only [isDirectory, put, hbase, hany] at h ⊢
      grind
    | above | root => simpa [put, isDirectory, hbase] using h
  | above | root => simpa only [put, hbase] using h

/-- A file does not become a directory by being written. -/
theorem isDirectory_put_self : (t.put place bytes).isDirectory place = t.isDirectory place := by
  obtain ⟨base, names⟩ := place
  cases base with
  | here =>
    -- the file itself does not lie in a directory of its own name
    have hany := any_putFile names bytes (fun n => n != names && names.isPrefixOf n) t.files
    simp only [isDirectory, put, hany, bne_self_eq_false, Bool.false_and, Bool.false_or]
  | above | root => rfl

/-! ## Reading what was written -/

/-- The names that lead to a place still do. By induction on the names, as each directory on the way
stays one. -/
theorem locate_put {names : List Text} {start : Place} (h : t.locate start names = .ok q) :
    (t.put place bytes).locate start names = .ok q := by
  induction names generalizing start with
  | nil => exact h
  | cons name more ih =>
    rw [locate] at h ⊢
    cases hdirectory : t.isDirectory start with
    | false => simp [hdirectory] at h
    | true =>
      rw [isDirectory_put hdirectory]
      simp only [hdirectory, Bool.not_true, Bool.false_eq_true, if_false] at h ⊢
      split_ifs at h ⊢ with hlong hparent
      · exact ih h
      · exact ih h

/-- A path still leads where it led. -/
theorem placeOf_put (h : t.placeOf p = .ok q) : (t.put place bytes).placeOf p = .ok q := by
  rw [placeOf] at h ⊢
  cases hflaw : p.flaw? with
  | some e => simp [hflaw] at h
  | none =>
    rw [hflaw] at h
    exact locate_put h

/-- **What is written to a file in sight is read there.** -/
theorem read_put (hplace : t.placeOf p = .ok place) (hhere : place.base = .here)
    (hfile : t.isDirectory place = false) : (t.put place bytes).read p = .ok bytes := by
  simp only [read, placeOf_put hplace, isDirectory_put_self, hfile, contents?_put_self hhere,
    bind, Except.bind, Bool.false_eq_true, if_false]
  rfl

/-- A write that succeeds is one to a place that is no directory. It fails where the place is not
found, or is a directory. -/
theorem exists_of_write_eq_ok (h : t.write p bytes = .ok after) :
    ∃ place, t.placeOf p = .ok place ∧ t.isDirectory place = false ∧
      after = t.put place bytes := by
  simp only [write, bind, Except.bind, pure, Except.pure] at h
  cases hplace : t.placeOf p with
  | error e => simp [hplace] at h
  | ok place =>
    cases hdirectory : t.isDirectory place with
    | true => simp [hplace, hdirectory] at h
    | false => exact ⟨place, rfl, hdirectory, by simpa [hplace, hdirectory] using h.symm⟩

/-- A file has received a text: it is read as the text, if it is in sight, and nothing else has
changed. -/
structure Receives (before : Tree) (p : Path) (place : Place) (text : Text) (after : Tree) :
    Prop where
  placeOf_eq : before.placeOf p = .ok place
  exists_read_eq : place.base = .here →
    ∃ bytes, after.read p = .ok bytes ∧ Utf8.decode bytes = .ok text
  contents?_eq : ∀ q, q ≠ place → after.contents? q = before.contents? q
  directories_eq : after.directories = before.directories

/-- **What a write does.** The file that the path leads to has received the text. -/
theorem exists_receives_of_write (h : before.write p (Utf8.encode text) = .ok after) :
    ∃ place, before.Receives p place text after := by
  obtain ⟨place, hplace, hfile, rfl⟩ := exists_of_write_eq_ok h
  refine ⟨place, hplace, fun hhere => ?_, fun q hq => contents?_put_of_ne hq, ?_⟩
  · exact ⟨_, read_put hplace hhere hfile, Utf8.decode_encode text⟩
  · cases hbase : place.base <;> simp [put, hbase]

end Manpage.Tree
