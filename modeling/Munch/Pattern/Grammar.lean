-- SUMMARY: The grammar of patterns and the parser it makes.
import Munch.Pattern.Basic
import Munch.Pattern.Error
import Munch.Peg

/-!
# The grammar of patterns

| Written         | Meaning                                                      |
|-----------------|--------------------------------------------------------------|
| `c`             | the character itself                                         |
| `\c`            | a control character by its letter, or the character itself   |
| `\x1F;`         | the character with this code point                           |
| `[s]`           | a character of the class                                     |
| `(p)`           | grouping                                                     |
| `p?` `p+` `p*`  | optional, repeated, both                                     |
| `pq`, `p|q`     | concatenation, alternation                                   |

Inside a class `s|t` is the union, `s&t` the intersection and `~s` the
complement, each binding closer than the one before. The atoms are `a-b`, `a-`
(from `a` on), `-b` (up to `b`), `a` and `(s)`. Every `<` before a character
and every `>` after it shifts it down or up by one code point.

The grammar is written as parsing expressions. Each rule leaves exactly one
item on the stack, of the kind its name says.
-/

namespace Munch

namespace Pattern

/-! ## Results on the stack -/

inductive Item where
  | char (c : Char)
  | digits (digits : List Char)
  | shift (distance : Int)
  | classChar (c : ClassChar)
  | charClass (set : CharClass)
  | pattern (p : Pattern)

/-- What some items become, undefined where they are not of the kinds and number that it needs. -/
abbrev Reducer := List Item → Option Item

namespace Reducer

open Item

def join (f : Pattern → Pattern → Pattern) : Reducer
  | [pattern a, pattern b] => some (pattern (f a b))
  | _ => none

def quantify (optional repeating : Bool) : Reducer
  | [pattern p] => some (pattern (.optRep p optional repeating))
  | _ => none

def asHex : Reducer
  | [digits ds] => some (pattern (.hex ds))
  | _ => none

def asOneOf : Reducer
  | [charClass s] => some (pattern (.oneOf s))
  | _ => none

def joinClasses (f : CharClass → CharClass → CharClass) : Reducer
  | [charClass a, charClass b] => some (charClass (f a b))
  | _ => none

def negate : Reducer
  | [charClass s] => some (charClass (.complement s))
  | _ => none

/-- A character becomes a class. -/
def asClass (f : ClassChar → CharClass) : Reducer
  | [classChar c] => some (charClass (f c))
  | _ => none

/-- Two characters become the class between them. -/
def asRange : Reducer
  | [classChar a, classChar b] => some (charClass (.ofEndpoints a b))
  | _ => none

/-- The sum of two shifts, if it has 32 bits; there are no longer shifts. -/
def sum? (m n : Int) : Option Int :=
  if -2147483648 ≤ m + n ∧ m + n ≤ 2147483647 then some (m + n) else none

def moveShift (distance : Int) : Reducer
  | [shift n] => (sum? n distance).map shift
  | _ => none

/-- A character between two shifts is shifted by both. -/
def applyShifts : Reducer
  | [shift left, classChar c, shift right] =>
    (sum? left right).map fun n => classChar (.shift n c)
  | _ => none

def asClassHex : Reducer
  | [digits ds] => some (classChar (.hex ds))
  | _ => none

/-- One more digit behind the others. -/
def appendDigit : Reducer
  | [digits ds, char d] => some (digits (ds ++ [d]))
  | _ => none

end Reducer

/-! ## Alphabets -/

/-- The characters that have a meaning of their own, and those that a backslash may stand before. -/
structure Level where
  special : String
  escapable : String

namespace Level

/-- Patterns, outside of classes. -/
def outer : Level := ⟨"()+?*|\\[]", "()+?*|\\[]abtnvfrsS"⟩

/-- The inside of a class. -/
def inner : Level := ⟨"()<>~&|[]\\-", "()<>~&|[]\\-abtnvfr"⟩

/-- What stands for itself: printable characters, as far as the grammar cares. -/
def literals (level : Level) : RangeSet Char := .greaterEqual ' ' \ .anyOf level.special.toList

/-- What may follow a backslash. -/
def escapes (level : Level) : RangeSet Char := .anyOf level.escapable.toList

end Level

def hexDigits : RangeSet Char := .range '0' '9' ∪ .range 'A' 'F' ∪ .range 'a' 'f'

/-! ## Rules -/

inductive Nonterminal where
  | regex | sequence | quantified | atom
  | set | meet | factor | setAtom | setChar | setLiteral
deriving DecidableEq

open Peg Reducer in
/-- The digits of a hexadecimal escape, with the marks around them. -/
def hexEscape : Peg Nonterminal Item :=
  exact 'x' ++ push (Item.digits []) ++ many1 (take hexDigits Item.char ++ reduce 2 appendDigit) ++
    take (.only ';') Item.char ++ drop

open Peg in
/-- A character: itself, behind a backslash, or by the digits of its code point. -/
def letter (level : Level) (single escape : Char → Item) (hex : Reducer) : Peg Nonterminal Item :=
  take level.literals single <|>
    exact '\\' ++ (take level.escapes escape <|> hexEscape ++ reduce 1 hex)

open Peg Reducer Nonterminal in
/-- The rules, each with its body. -/
def grammar : List (Nonterminal × Peg Nonterminal Item) :=
  [(.regex, separated (call .sequence) '|' (join fun a b => .alternative [a, b])),
    (.sequence,
      push (Item.pattern .emptyString) ++
        many (call quantified ++ reduce 2 (join fun a b => .concat [a, b]))),
    (.quantified,
      call atom ++ opt
        (exact '?' ++ reduce 1 (quantify true false) <|>
          exact '+' ++ reduce 1 (quantify false true) <|>
          exact '*' ++ reduce 1 (quantify true true))),
    (.atom,
      letter .outer (fun c => .pattern (.single c)) (fun c => .pattern (.escape c)) asHex <|>
        exact '[' ++ call set ++ exact ']' ++ reduce 1 asOneOf <|>
        exact '(' ++ call regex ++ exact ')'),
    (.set, separated (call meet) '|' (joinClasses fun a b => .union [a, b])),
    (.meet, separated (call factor) '&' (joinClasses fun a b => .intersection [a, b])),
    (.factor, exact '~' ++ call setAtom ++ reduce 1 negate <|> call setAtom),
    (.setAtom,
      call setChar ++
          (exact '-' ++ (call setChar ++ reduce 2 asRange <|> reduce 1 (asClass .greaterEqual)) <|>
            reduce 1 (asClass .only)) <|>
        exact '-' ++ call setChar ++ reduce 1 (asClass .lessEqual) <|>
        exact '(' ++ call set ++ exact ')'),
    (.setChar,
      push (Item.shift 0) ++ many (exact '<' ++ reduce 1 (moveShift (-1))) ++ call setLiteral ++
        push (Item.shift 0) ++ many (exact '>' ++ reduce 1 (moveShift 1)) ++ reduce 3 applyShifts),
    (.setLiteral,
      letter .inner (fun c => .classChar (.single c)) (fun c => .classChar (.escape c)) asClassHex)]

/-- The body of a rule, if the grammar has one. -/
def rules (n : Nonterminal) : Option (Peg Nonterminal Item) := grammar.lookup n

/-! ## Parsing -/

/-- How deep the machine may go: a bounded number of steps for every character, and for the end. -/
def depth (input : List Char) : Nat := 64 * (input.length + 1)

/-- The tree of a pattern, which has to be read to its end. -/
def parse (text : String) : Except PatternError Pattern :=
  let input := text.toList
  match Peg.run rules (depth input) (.call .regex) [] input with
  | .matched [.pattern p] [] => .ok p
  | .matched _ [] => .error .stuck
  | .matched _ rest => .error (.malformed text (input.length - rest.length))
  | .failed => .error (.malformed text 0)
  | .stuck | .exhausted => .error .stuck

end Pattern

end Munch
