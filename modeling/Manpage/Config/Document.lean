import Manpage.Config.Value

/-!
# Configuration documents in the making

A document is a tree of tables that grows entry by entry. A table comes about by a header of its
own, on the way to another table, or by a dotted key; this decides what may still be added to it.
A table that has a header is not declared again, and dotted keys enter neither such a table nor one
that dotted keys of an earlier part of the document have made. A value is never changed.

## Main definitions

* `Manpage.Config.Node` — a value, a table, or an array of tables.
* `Manpage.Config.declareTable?`, `Manpage.Config.declareElement?` — the effect of a header.
* `Manpage.Config.insert?`, `Manpage.Config.insertUnder?` — the effect of an entry.
* `Manpage.Config.Node.value` — the value of a complete tree.
-/

namespace Manpage.Config

/-- How a table has come about. -/
inductive Origin where
  /-- on the way to another table -/
  | implied
  /-- by a header of its own -/
  | declared
  /-- by a dotted key in a given part of the document -/
  | dotted (part : Nat)
deriving DecidableEq

/-- A dotted key in the given part of the document may not enter the table. -/
def Origin.isClosedTo (part : Nat) : Origin → Bool
  | implied => false
  | declared => true
  | dotted n => n != part

/-- A node of a document. The elements of an array of tables are kept latest first. -/
inductive Node where
  | value (v : Value)
  | table (origin : Origin) (entries : List (Text × Node))
  | tables (elements : List (List (Text × Node)))

/-- The entries of a table, in the order in which they were made. -/
abbrev Entries :=
  List (Text × Node)

namespace Entries

/-- The entry of a key replaced, or made if there is none. -/
def put (key : Text) (node : Node) : Entries → Entries
  | [] => [(key, node)]
  | (k, n) :: more => if k == key then (k, node) :: more else (k, n) :: put key node more

end Entries

/-! ## Headers -/

/-- A table declared by a header. -/
def declareTable? (entries : Entries) : List Text → Option Entries
  | [] => none
  | [key] =>
    match entries.lookup key with
    | none => some (Entries.put key (.table .declared []) entries)
    | some (.table .implied inner) => some (Entries.put key (.table .declared inner) entries)
    | some _ => none
  | key :: path =>
    match entries.lookup key with
    | none => (declareTable? [] path).map fun inner =>
        Entries.put key (.table .implied inner) entries
    | some (.table origin inner) => (declareTable? inner path).map fun inner =>
        Entries.put key (.table origin inner) entries
    | some (.tables (last :: others)) => (declareTable? last path).map fun last =>
        Entries.put key (.tables (last :: others)) entries
    | some _ => none

/-- An element of an array of tables declared by a header. -/
def declareElement? (entries : Entries) : List Text → Option Entries
  | [] => none
  | [key] =>
    match entries.lookup key with
    | none => some (Entries.put key (.tables [[]]) entries)
    | some (.tables elements) => some (Entries.put key (.tables ([] :: elements)) entries)
    | some _ => none
  | key :: path =>
    match entries.lookup key with
    | none => (declareElement? [] path).map fun inner =>
        Entries.put key (.table .implied inner) entries
    | some (.table origin inner) => (declareElement? inner path).map fun inner =>
        Entries.put key (.table origin inner) entries
    | some (.tables (last :: others)) => (declareElement? last path).map fun last =>
        Entries.put key (.tables (last :: others)) entries
    | some _ => none

/-! ## Entries -/

/-- A value entered under a dotted key, in a given part of the document. -/
def insert? (part : Nat) (v : Value) (entries : Entries) : List Text → Option Entries
  | [] => none
  | [key] =>
    match entries.lookup key with
    | none => some (Entries.put key (.value v) entries)
    | some _ => none
  | key :: path =>
    match entries.lookup key with
    | none => (insert? part v [] path).map fun inner =>
        Entries.put key (.table (.dotted part) inner) entries
    | some (.table origin inner) =>
      if origin.isClosedTo part then none
      else (insert? part v inner path).map fun inner =>
        Entries.put key (.table (.dotted part) inner) entries
    | some _ => none

/-- A value entered under a dotted key in the table that a header has opened. -/
def insertUnder? (part : Nat) (v : Value) (key : List Text) (entries : Entries) :
    List Text → Option Entries
  | [] => insert? part v entries key
  | name :: path =>
    match entries.lookup name with
    | some (.table origin inner) => (insertUnder? part v key inner path).map fun inner =>
        Entries.put name (.table origin inner) entries
    | some (.tables (last :: others)) => (insertUnder? part v key last path).map fun last =>
        Entries.put name (.tables (last :: others)) entries
    | _ => none

/-! ## Values -/

mutual

/-- The value of a node. -/
def Node.toValue : Node → Value
  | .value v => v
  | .table _ entries => .table (entryValues entries)
  | .tables elements => .list (elementValues elements).reverse

/-- The values of the entries of a table. -/
def entryValues : List (Text × Node) → List (Text × Value)
  | [] => []
  | (key, node) :: more => (key, node.toValue) :: entryValues more

/-- The values of the elements of an array of tables. -/
def elementValues : List (List (Text × Node)) → List Value
  | [] => []
  | entries :: more => .table (entryValues entries) :: elementValues more

end

end Manpage.Config
