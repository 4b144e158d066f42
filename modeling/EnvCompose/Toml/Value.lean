/-!
# Settings as tables

A TOML document is a table of named values. How a table came about decides what may still be added
to it: nothing to one written as a value, further tables to one that only stands on the way to
another, keys with points to one made by such keys.
-/
namespace EnvCompose.Toml

inductive Origin where
  /-- A table with a header of its own. -/
  | header
  /-- A table on the way to one with a header. -/
  | passed
  /-- A table on the way to a value under a key with points. -/
  | dotted
  deriving DecidableEq, Repr

inductive Value where
  | text (s : String)
  | boolean (b : Bool)
  | integer (i : Int)
  | float
  /-- A date, a time or both. -/
  | moment
  | array (items : List Value)
  /-- A table written as a value. -/
  | inline (entries : List (String × Value))
  | table (origin : Origin) (entries : List (String × Value))
  /-- Tables under headers of the same name, last one first. -/
  | tables (reversed : List (List (String × Value)))
  deriving Repr, Inhabited

/-- The entries of a table, under different names. -/
abbrev Entries := List (String × Value)

namespace Entries

def put (es : Entries) (name : String) (v : Value) : Entries :=
  match es with
  | [] => [(name, v)]
  | e :: es => if e.1 == name then (name, v) :: es else e :: put es name v

/-- The entries with a new one, unless there is one of its name. -/
def add (es : Entries) (name : String) (v : Value) : Option Entries :=
  if (es.lookup name).isSome then none else some (es ++ [(name, v)])

/-- Changes the table that a header's path leads to, which is made if it is missing. -/
def changeAt (f : Entries → Option Entries) : List String → Entries → Option Entries
  | [], es => f es
  | name :: path, es =>
    match es.lookup name with
    | none => (changeAt f path []).map fun inner => es.put name (.table .passed inner)
    | some (.table origin inner) =>
      (changeAt f path inner).map fun inner => es.put name (.table origin inner)
    | some (.tables (last :: others)) =>
      (changeAt f path last).map fun inner => es.put name (.tables (inner :: others))
    | some _ => none

/-- Adds a value under a key with points before its last name. Of the tables on the way none may
have a header, and the last of them has to be made by keys with points. -/
def addDotted : List String → String → Value → Entries → Option Entries
  | [], name, v, es => es.add name v
  | first :: path, name, v, es =>
    match es.lookup first with
    | none => (addDotted path name v []).map fun inner => es.put first (.table .dotted inner)
    | some (.table origin inner) =>
      if origin == .header || (path.isEmpty && origin != .dotted) then none
      else (addDotted path name v inner).map fun inner => es.put first (.table origin inner)
    | some (.tables (last :: others)) =>
      if path.isEmpty then none
      else (addDotted path name v last).map fun inner => es.put first (.tables (inner :: others))
    | some _ => none

/-- Gives the table of a header its entries. It may have been passed before, but not made. -/
def addTable (name : String) (fill : Entries → Option Entries) (es : Entries) : Option Entries :=
  match es.lookup name with
  | none => (fill []).map fun inner => es.put name (.table .header inner)
  | some (.table .passed inner) => (fill inner).map fun inner => es.put name (.table .header inner)
  | some _ => none

def addToTables (name : String) (fill : Entries → Option Entries) (es : Entries) : Option Entries :=
  match es.lookup name with
  | none => (fill []).map fun inner => es.put name (.tables [inner])
  | some (.tables others) => (fill []).map fun inner => es.put name (.tables (inner :: others))
  | some _ => none

end Entries
end EnvCompose.Toml
