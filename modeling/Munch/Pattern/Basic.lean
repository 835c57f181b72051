-- SUMMARY: Syntax trees of patterns, with escapes kept as they were written.

/-!
# Patterns

The tree of a pattern has three layers: patterns, the character classes in
them (written in square brackets), and the characters in a class. Escapes and
hexadecimal escapes keep the characters they were written with, so a tree can
hold one that stands for no character; evaluation finds that out.
-/

namespace Munch

/-- A character in a class. -/
inductive ClassChar where
  | single (c : Char)
  /-- A backslash and the character. -/
  | escape (c : Char)
  /-- A character given by the hexadecimal digits of its code point. -/
  | hex (digits : List Char)
  /-- The character that lies `distance` code points further on. -/
  | offset (distance : Int) (item : ClassChar)
deriving DecidableEq, Inhabited

/-- A shift by nothing is no shift. -/
def ClassChar.shift (distance : Int) (item : ClassChar) : ClassChar :=
  if distance = 0 then item else offset distance item

inductive CharClass where
  /-- The characters between two endpoints, which may come in either order. -/
  | between (start stop : ClassChar)
  | greaterEqual (start : ClassChar)
  | lessEqual (stop : ClassChar)
  | only (c : ClassChar)
  | complement (set : CharClass)
  | union (sets : List CharClass)
  | intersection (sets : List CharClass)
deriving Inhabited

/-- Endpoints that are written the same way make a single character. -/
def CharClass.ofEndpoints (start stop : ClassChar) : CharClass :=
  if start = stop then only start else between start stop

inductive Pattern where
  | emptyString
  | single (c : Char)
  | escape (c : Char)
  | hex (digits : List Char)
  | oneOf (set : CharClass)
  | sequence (items : List Pattern)
  | alternative (items : List Pattern)
  | optRep (body : Pattern) (optional repeating : Bool)
deriving Inhabited

namespace Pattern

/-- What an item adds to a sequence: the items of a sequence, nothing for the empty string. -/
def factors : Pattern → List Pattern
  | emptyString => []
  | sequence items => items
  | item => [item]

/-- The sequence of the given factors, which is the factor itself if there is only one. -/
def ofFactors : List Pattern → Pattern
  | [] => emptyString
  | [item] => item
  | items => sequence items

/-- Concatenation, flattened by one level and without empty strings. -/
def concat (items : List Pattern) : Pattern := ofFactors (items.flatMap factors)

end Pattern

end Munch
