-- SUMMARY: Reading settings files: readers, blanks, comments and the ends of lines.

/-!
# Reading settings files

Readers give what they read with the characters behind it. Most of them stop at
the end of a line; between the items of a list lines may end and comments stand.
-/

namespace Munch.Toml

abbrev Reader (β : Type) := List Char → Option (β × List Char)

/-- How many keys of a path follow each other, and how many values stand in each other, at most. -/
def maxDepth : Nat := 79

def isBlank (c : Char) : Bool := c = ' ' || c = '\t'

/-- Controls, the tabulator apart, stand neither in strings nor in comments. -/
def isControl (c : Char) : Bool := (c.toNat < 0x20 && c != '\t') || c = '\x7F'

def skipBlanks (input : List Char) : List Char := input.dropWhile isBlank

/-- What follows a character of a kind. -/
def after? (isWanted : Char → Bool) : List Char → Option (List Char)
  | c :: rest => if isWanted c then some rest else none
  | [] => none

/-- What follows the end of a line. A carriage return before it belongs to it. -/
def afterLine? : List Char → Option (List Char)
  | '\n' :: rest => some rest
  | '\r' :: '\n' :: rest => some rest
  | _ => none

/-- Whether nothing but a comment is left of a line. -/
def isDone (input : List Char) : Bool :=
  match skipBlanks input with
  | [] => true
  | '#' :: _ => true
  | rest => (afterLine? rest).isSome

/-- Skips blanks, lines that end, and comments; those run from a number sign to the end of the line
and are left at a control character, so that nothing can be read behind one that has such. -/
def skipSpace (inComment : Bool) : List Char → List Char
  | [] => []
  | '\n' :: rest => skipSpace false rest
  | '\r' :: '\n' :: rest => skipSpace false rest
  | c :: rest =>
    if inComment then
      if isControl c then c :: rest else skipSpace true rest
    else if isBlank c then skipSpace false rest
    else if c = '#' then skipSpace true rest
    else c :: rest

end Munch.Toml
