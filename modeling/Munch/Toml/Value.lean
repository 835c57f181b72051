-- SUMMARY: How keys and values are written in settings files.
import Munch.Toml.Moment
import Munch.Toml.Table

/-!
# Keys and values of settings files

A value is a truth value, a number, a moment, a string, a list in brackets or a
table in braces. Lists may run over several lines.
-/

namespace Munch.Toml

/-! ## Keys -/

def isBareKeyChar (c : Char) : Bool := c.isAlphanum || c = '_' || c = '-'

/-- A key, in quotation marks or bare. -/
def key? (input : List Char) : Option (String × List Char) :=
  match input with
  | '"' :: _ | '\'' :: _ => quoted? input
  | _ =>
    match input.takeWhile isBareKeyChar with
    | [] => none
    | cs => some (String.ofList cs, input.dropWhile isBareKeyChar)

/-- At most `depth` keys with dots between them: those that lead to a table, and the last one. -/
def path? : Nat → Reader (List String × String)
  | 0, _ => none
  | depth + 1, input => do
    let (key, rest) ← key? (skipBlanks input)
    match skipBlanks rest with
    | '.' :: rest => do
      let ((path, last), rest) ← path? depth rest
      return ((key :: path, last), rest)
    | rest => return (([], key), rest)

/-! ## Values -/

/-- What a word without quotation marks stands for. -/
def word? (cs : List Char) : Option Value :=
  if cs = "true".toList then some (.boolean true)
  else if cs = "false".toList then some (.boolean false)
  else if isNumber cs then some .number
  else none

def isWordChar (c : Char) : Bool := c.isAlphanum || c = '_' || c = '+' || c = '-' || c = '.'

mutual

/-- A value at the front of the input, in which at most `depth` others stand in each other. The fuel
bounds their depth and their number on one level. -/
def value? : Nat → Nat → Reader Value
  | 0, _, _ => none
  | fuel + 1, depth, input =>
    match input with
    | '[' :: rest =>
      match depth with
      | 0 => none
      | depth + 1 => do
        let (items, rest) ← items? fuel depth (skipSpace false rest)
        return (.list items, rest)
    | '{' :: rest =>
      match depth with
      | 0 => none
      | depth + 1 =>
        match skipBlanks rest with
        | '}' :: rest => some (.table .braces [], rest)
        | rest => do
          let (entries, rest) ← entries? fuel depth [] rest
          return (.table .braces entries, rest)
    | '"' :: _ | '\'' :: _ => do
      let (s, rest) ← string? input
      return (.text s, rest)
    | _ =>
      match afterMoment? input with
      | some rest => some (.moment, rest)
      | none => do
        let v ← word? (input.takeWhile isWordChar)
        return (v, input.dropWhile isWordChar)

/-- The items of a list up to its end; a comma may stand behind the last one. -/
def items? : Nat → Nat → Reader (List Value)
  | 0, _, _ => none
  | fuel + 1, depth, input =>
    match input with
    | ']' :: rest => some ([], rest)
    | _ => do
      let (v, rest) ← value? fuel depth input
      match skipSpace false rest with
      | ',' :: rest => do
        let (vs, rest) ← items? fuel depth (skipSpace false rest)
        return (v :: vs, rest)
      | ']' :: rest => return ([v], rest)
      | _ => none

/-- Adds entries up to the end of a table in braces to those before them. -/
def entries? : Nat → Nat → Entries → Reader Entries
  | 0, _, _, _ => none
  | fuel + 1, depth, entries, input => do
    let ((path, key), rest) ← path? maxDepth input
    let (v, rest) ← value? fuel depth (skipBlanks (← after? (· = '=') rest))
    let entries ← Entries.assign path key v entries
    match skipBlanks rest with
    | ',' :: rest => entries? fuel depth entries rest
    | '}' :: rest => return (entries, rest)
    | _ => none

end

end Munch.Toml
