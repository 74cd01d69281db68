/-!
# TOML values

A document is a table. Tables know how they came about, because that decides what may still be added
to them: a table written inline is complete, one that a header only passes through can get a header
of its own later, and one made by a dotted key can only be extended by dotted keys.
-/

namespace ScriptEngine

/-- How a table came about. -/
inductive Toml.Origin where
  /-- Written in braces. -/
  | inline
  /-- Passed through by a header. -/
  | implicit
  /-- Made by a dotted key. -/
  | dotted
  /-- Given by a header of its own. -/
  | header
deriving DecidableEq, Repr, Inhabited

/-- A TOML value. Of numbers with a fraction and of dates only the kind is kept. -/
inductive Toml where
  | string (s : String)
  | integer (z : Int)
  | boolean (b : Bool)
  | float
  | date
  | array (items : List Toml)
  | table (origin : Toml.Origin) (entries : List (String × Toml))
  /-- Tables under a repeated header, the latest first. -/
  | tables (items : List (List (String × Toml)))
deriving Repr, Inhabited

namespace Toml

abbrev Entries := List (String × Toml)

/-- Puts a value in the place of the one with the same key, or at the end. -/
def put (key : String) (value : Toml) : Entries → Entries
  | [] => [(key, value)]
  | (k, v) :: rest => if k = key then (k, value) :: rest else (k, v) :: put key value rest

/-- Changes the table that a path leads to. A path of a header passes through all tables that are
not written inline, one of a dotted key only through tables without a header; tables that are
missing are made. The change is told how the table came about. -/
def updateAt (byKey : Bool) (change : Origin → Entries → Option Entries) :
    List String → Origin → Entries → Option Entries
  | [], origin, entries => change origin entries
  | key :: path, _, entries => do
    match entries.lookup key with
    | none =>
      let origin : Origin := if byKey then .dotted else .implicit
      let inner ← updateAt byKey change path origin []
      return put key (.table origin inner) entries
    | some (.table origin inner) =>
      if origin = .inline || (byKey && origin = .header) then none
      let inner ← updateAt byKey change path origin inner
      return put key (.table origin inner) entries
    | some (.tables (last :: earlier)) =>
      let inner ← updateAt byKey change path .header last
      return put key (.tables (inner :: earlier)) entries
    | _ => none

/-- Adds an entry at the end of a dotted key, which is new there. A dotted key ends in a table made
by dotted keys, and a plain key in a table that is not. -/
def addEntry (path : List String) (key : String) (value : Toml) (origin : Origin)
    (entries : Entries) : Option Entries :=
  updateAt true
    (fun origin inner =>
      if decide (origin = .dotted) == path.isEmpty || (inner.lookup key).isSome then none
      else some (put key value inner))
    path origin entries

/-- Opens a table by a header. A table that was only passed through so far may be opened. -/
def openTable (key : String) (_ : Origin) (entries : Entries) : Option Entries :=
  match entries.lookup key with
  | none => some (put key (.table .header []) entries)
  | some (.table .implicit inner) => some (put key (.table .header inner) entries)
  | some _ => none

def openNextTable (key : String) (_ : Origin) (entries : Entries) : Option Entries :=
  match entries.lookup key with
  | none => some (put key (.tables [[]]) entries)
  | some (.tables items) => some (put key (.tables ([] :: items)) entries)
  | some _ => none

inductive Line where
  | header (path : List String) (key : String)
  | repeatedHeader (path : List String) (key : String)
  | entry (path : List String) (key : String) (value : Toml)
deriving Repr, Inhabited

/-- A document so far: the entries, and the path of the table under the latest header. -/
structure Draft where
  entries : Entries := []
  current : List String := []

def Draft.add (d : Draft) : Line → Option Draft
  | .header path key => do
    let entries ← updateAt false (openTable key) path .header d.entries
    return { entries, current := path ++ [key] }
  | .repeatedHeader path key => do
    let entries ← updateAt false (openNextTable key) path .header d.entries
    return { entries, current := path ++ [key] }
  | .entry path key value => do
    let entries ← updateAt false (addEntry path key value) d.current .header d.entries
    return { d with entries }

def ofLines? (lines : List Line) : Option Entries :=
  (lines.foldlM Draft.add {}).map (·.entries)

/-- The entries of an inline table with the given dotted keys. -/
def inlineTable? (pairs : List (List String × String × Toml)) : Option Toml := do
  let entries ← pairs.foldlM
    (fun entries (path, key, value) => addEntry path key value .inline entries) []
  return .table .inline entries

end Toml

end ScriptEngine
