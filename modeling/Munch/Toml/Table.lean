-- SUMMARY: Values of settings files, and tables that lines of a file add to.

/-!
# Tables of settings files

A table has entries, which are values under keys, and knows how it came about:
that decides which lines may still add to it.
-/

namespace Munch.Toml

/-- How a table came about. -/
inductive Origin where
  /-- As a step on the way to a table that a line opened. -/
  | path
  /-- By a line that opened it. -/
  | header
  /-- By a line that added it to a list of tables. -/
  | item
  /-- As a step on the way to a key that was given a value. -/
  | keys
  /-- In braces, as a value. -/
  | braces
deriving DecidableEq

inductive Value where
  | boolean (b : Bool)
  | number
  | moment
  | text (s : String)
  | list (items : List Value)
  | table (origin : Origin) (entries : List (String × Value))
  /-- Tables that lines added to a list, the last one first. -/
  | tables (items : List Value)
deriving Inhabited

abbrev Entries := List (String × Value)

/-- The entries with one of them replaced or added. -/
def Entries.put (entries : Entries) (key : String) (v : Value) : Entries :=
  match entries with
  | [] => [(key, v)]
  | e :: rest => if e.1 = key then (key, v) :: rest else e :: Entries.put rest key v

/-- Changes the entries of the table that the keys lead to. Tables on the way are made as `made` if
they are missing, and of a list of tables the last one is taken. Whether a table that is there may
be entered, `enters` decides, which is told whether it is the one that the keys lead to. -/
def Entries.inside (made : Origin) (enters : Bool → Origin → Bool)
    (change : Entries → Option Entries) : List String → Entries → Option Entries
  | [], entries => change entries
  | key :: path, entries => do
    let changed ← match entries.lookup key with
      | none => Value.table made <$> Entries.inside made enters change path []
      | some (.table origin inner) =>
        if enters path.isEmpty origin then
          Value.table origin <$> Entries.inside made enters change path inner
        else none
      | some (.tables (.table origin inner :: before)) =>
        if enters path.isEmpty origin then
          (fun inner => Value.tables (.table origin inner :: before)) <$>
            Entries.inside made enters change path inner
        else none
      | some _ => none
    return Entries.put entries key changed

/-- Gives a value to a key, which must not have one, in the table that the keys lead to. Only a
table made by such lines is added to, and none that a line opened or braces enclose is passed. -/
def Entries.assign (path : List String) (key : String) (v : Value) : Entries → Option Entries :=
  Entries.inside .keys
    (fun isLast origin => origin = .keys || (!isLast && (origin = .path || origin = .item)))
    (fun entries =>
      match entries.lookup key with
      | none => some (Entries.put entries key v)
      | some _ => none)
    path

/-- Changes the entries of the table that the keys of a line lead to, which opens a table. -/
def Entries.within (change : Entries → Option Entries) : List String → Entries → Option Entries :=
  Entries.inside .path (fun _ origin => origin != .braces) change

/-- Opens a table, which must not have been made by a line of its own or by keys. -/
def Entries.openTable (path : List String) (key : String) : Entries → Option Entries :=
  Entries.within
    (fun entries =>
      match entries.lookup key with
      | none => some (Entries.put entries key (.table .header []))
      | some (.table .path inner) => some (Entries.put entries key (.table .header inner))
      | some _ => none)
    path

/-- Adds a table to a list of tables, which is made if it is missing. -/
def Entries.addTable (path : List String) (key : String) : Entries → Option Entries :=
  Entries.within
    (fun entries =>
      match entries.lookup key with
      | none => some (Entries.put entries key (.tables [.table .item []]))
      | some (.tables items) => some (Entries.put entries key (.tables (.table .item [] :: items)))
      | some _ => none)
    path

end Munch.Toml
