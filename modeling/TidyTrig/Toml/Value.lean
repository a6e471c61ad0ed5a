/-!
# TOML values

The values of a configuration file and the rules by which its lines build tables. A table can be
opened by a header, come about on the way to one, be written with dotted keys, or stand in braces;
which of these it was decides what later lines may still add to it.
-/

namespace TidyTrig.Toml

/-- How a table came about. -/
inductive Origin where
  /-- Opened by a header, or the table of the whole file. -/
  | header
  /-- On the way to the table of a header. -/
  | implied
  /-- On the way to a dotted key. -/
  | dotted
  /-- Written in braces, and complete. -/
  | braces
deriving DecidableEq

inductive Value where
  | string (text : String)
  | integer (value : Int)
  | boolean (value : Bool)
  /-- Numbers that are no integers, and times, as written. -/
  | other (text : String)
  | array (items : List Value)
  | table (origin : Origin) (entries : List (String × Value))
  /-- An array of tables that have a header each. -/
  | tables (items : List (List (String × Value)))

/-- The keys of a table with their values. -/
abbrev Entries := List (String × Value)

namespace Entries

/-- Replaces the value of a key, or adds the key. -/
def set (key : String) (value : Value) : Entries → Entries
  | [] => [(key, value)]
  | (k, v) :: rest => if k = key then (key, value) :: rest else (k, v) :: set key value rest

/-- Changes the table that a path leads to, with the origins of the tables on the way. Missing
tables are made. Of an array of tables the last is meant. Dotted keys may not lead into a table
that has a header, and nothing leads into one in braces. -/
def modifyAt (change : Origin → Entries → Option Entries) (isDotted : Bool) (origin : Origin)
    (entries : Entries) : List String → Option Entries
  | [] => change origin entries
  | key :: path =>
    match entries.lookup key with
    | none => do
      let made := if isDotted then .dotted else .implied
      let inner ← modifyAt change isDotted made [] path
      some (entries.set key (.table made inner))
    | some (.table .braces _) => none
    | some (.table .header inner) =>
      if isDotted then none
      else do some (entries.set key (.table .header (← modifyAt change isDotted .header inner path)))
    | some (.table made inner) => do
      some (entries.set key (.table made (← modifyAt change isDotted made inner path)))
    | some (.tables items) => do
      let last ← modifyAt change isDotted .header (← items.getLast?) path
      some (entries.set key (.tables (items.dropLast ++ [last])))
    | some _ => none

/-- Adds a key at the end of a path of dotted keys. The key must be new, and its table one of
dotted keys unless the path is empty. -/
def addKey (path : List String) (key : String) (value : Value) (origin : Origin)
    (entries : Entries) : Option Entries :=
  modifyAt (fun made inner =>
    if (made = .dotted) == path.isEmpty || (inner.lookup key).isSome then none
    else some (inner.set key value)) true origin entries path

/-- Opens the table of a header. -/
def openTable (path : List String) (key : String) (entries : Entries) : Option Entries :=
  modifyAt (fun _ inner =>
    match inner.lookup key with
    | none => some (inner.set key (.table .header []))
    | some (.table .implied old) => some (inner.set key (.table .header old))
    | some _ => none) false .header entries path

/-- Opens a further table of an array of tables. -/
def openItem (path : List String) (key : String) (entries : Entries) : Option Entries :=
  modifyAt (fun _ inner =>
    match inner.lookup key with
    | none => some (inner.set key (.tables [[]]))
    | some (.tables items) => some (inner.set key (.tables (items ++ [[]])))
    | some _ => none) false .header entries path

end Entries
end TidyTrig.Toml
