-- SUMMARY: Settings files as a whole.
import Munch.Toml.Value

/-!
# Settings files

A line gives a value to a key, opens a table that the keys after it belong to,
or adds such a table to a list. No key is given a value twice and no table is
opened twice.
-/

namespace Munch.Toml

/-- The table that keys belong to, and everything read so far. -/
structure Document where
  current : List String
  entries : Entries

/-- Reads what one line says; a value may end on a later line. -/
def Document.statement? (d : Document) (input : List Char) : Option (Document × List Char) :=
  match input with
  | '[' :: '[' :: rest => do
    let ((path, key), rest) ← path? maxDepth rest
    let rest ← after? (· = ']') (← after? (· = ']') rest)
    return (⟨path ++ [key], ← d.entries.addTable path key⟩, rest)
  | '[' :: rest => do
    let ((path, key), rest) ← path? maxDepth rest
    let rest ← after? (· = ']') rest
    return (⟨path ++ [key], ← d.entries.openTable path key⟩, rest)
  | _ => do
    let ((path, key), rest) ← path? maxDepth input
    let rest ← after? (· = '=') rest
    let (v, rest) ← value? (rest.length + 1) maxDepth (skipBlanks rest)
    return ({ d with entries := ← Entries.within (Entries.assign path key v) d.current d.entries },
      rest)

/-- Reads statements, each to the end of its line. The fuel bounds their number. -/
def Document.read? : Nat → Document → List Char → Option Document
  | 0, _, _ => none
  | fuel + 1, d, input =>
    match skipSpace false input with
    | [] => some d
    | input => do
      let (d, rest) ← d.statement? input
      if isDone rest then Document.read? fuel d rest else none

/-- A text without the byte order mark that it may begin with. -/
def unmarked : List Char → List Char
  | '\uFEFF' :: text => text
  | text => text

/-- The entries of a file outside of all tables, with the tables themselves. -/
def parse? (text : String) : Option Entries :=
  let input := unmarked text.toList
  Document.entries <$> Document.read? (input.length + 1) ⟨[], []⟩ input

end Munch.Toml
