-- SUMMARY: Tables that stand for a value which they hold.
import Munch.Toml.Table

/-!
# Wrapped values

While settings are merged, a value travels in a table, together with a number
that tells where it comes from. A file may spell such a table out: then the
table stands for the value in it.
-/

namespace Munch.Toml

/-- The key of the value in a table that stands for it. -/
def wrappedKey : String := "___figment_value_value"

/-- The key of the number of a wrapped value. It is an unsigned number, and those of a file are
signed, so no file has one that can be used. -/
def originKey : String := "___figment_value_id"

mutual

/-- A value with all values in it taken out of the tables that stand for them. There is none if one
of its tables numbers a value. -/
def Value.unwrap? : Value → Option Value
  | .list items => Value.list <$> unwrapItems? items
  | .tables items => Value.tables <$> unwrapItems? items
  | .table origin entries => do
    let entries ← unwrapEntries? entries
    match entries.lookup originKey, entries.lookup wrappedKey with
    | some _, _ => none
    | none, some v => return v
    | none, none => return .table origin entries
  | v => some v

def unwrapItems? : List Value → Option (List Value)
  | [] => some []
  | v :: rest => return (← v.unwrap?) :: (← unwrapItems? rest)

def unwrapEntries? : List (String × Value) → Option (List (String × Value))
  | [] => some []
  | (key, v) :: rest => return (key, ← v.unwrap?) :: (← unwrapEntries? rest)

end

end Munch.Toml
