-- SUMMARY: Derivations of the grammar of patterns, the text of each and the tree it denotes.
import Munch.Pattern.Grammar

/-!
# Derivations

A derivation says how a text comes about by the rules of the grammar, read as a
context-free grammar: any alternative may be taken, and an item may be repeated
any number of times.

    regex      := sequence ('|' sequence)*
    sequence   := quantified*
    quantified := atom ('?' | '+' | '*')?
    atom       := letter | '[' set ']' | '(' regex ')'
    set        := meet ('|' meet)*
    meet       := factor ('&' factor)*
    factor     := '~' setAtom | setAtom
    setAtom    := setChar ('-' setChar?)? | '-' setChar | '(' set ')'
    setChar    := '<'* setLiteral '>'*
    setLiteral := letter
    letter     := literal | '\' escapable | '\x' digit+ ';'
-/

namespace Munch.Pattern

/-! ## Letters -/

def IsHexDigit (c : Char) : Prop :=
  ('0' ≤ c ∧ c ≤ '9') ∨ ('A' ≤ c ∧ c ≤ 'F') ∨ ('a' ≤ c ∧ c ≤ 'f')

inductive Letter (level : Level) where
  | literal (c : Char) (printable : ' ' ≤ c) (plain : c ∉ level.special.toList)
  | escape (c : Char) (escapable : c ∈ level.escapable.toList)
  | hex (digits : List Char) (nonempty : digits ≠ []) (hexadecimal : ∀ d ∈ digits, IsHexDigit d)

namespace Letter

variable {level : Level} {β : Type}

def written : Letter level → List Char
  | literal c _ _ => [c]
  | escape c _ => ['\\', c]
  | hex digits _ _ => '\\' :: 'x' :: digits ++ [';']

/-- What a letter denotes, by the way it is written. -/
def value (single escaped : Char → β) (coded : List Char → β) : Letter level → β
  | literal c _ _ => single c
  | escape c _ => escaped c
  | hex digits _ _ => coded digits

end Letter

/-! ## Derivations -/

inductive Quantifier where
  | optional
  | repeated
  | any

def Quantifier.mark : Quantifier → Char
  | optional => '?'
  | repeated => '+'
  | any => '*'

def Quantifier.apply (body : Pattern) : Quantifier → Pattern
  | optional => .optRep body true false
  | repeated => .optRep body false true
  | any => .optRep body true true

mutual

/-- How a text comes about from a symbol of the grammar. -/
inductive Derivation : Nonterminal → Type where
  | regex (first : Derivation .sequence) (more : Derivations .sequence) : Derivation .regex
  | sequence (items : Derivations .quantified) : Derivation .sequence
  | quantified (atom : Derivation .atom) (quantifier : Option Quantifier) : Derivation .quantified
  | letter (l : Letter .outer) : Derivation .atom
  | oneOf (set : Derivation .set) : Derivation .atom
  | group (regex : Derivation .regex) : Derivation .atom
  | set (first : Derivation .meet) (more : Derivations .meet) : Derivation .set
  | meet (first : Derivation .factor) (more : Derivations .factor) : Derivation .meet
  | complement (atom : Derivation .setAtom) : Derivation .factor
  | factor (atom : Derivation .setAtom) : Derivation .factor
  | only (c : Derivation .setChar) : Derivation .setAtom
  | atLeast (start : Derivation .setChar) : Derivation .setAtom
  | between (start stop : Derivation .setChar) : Derivation .setAtom
  | atMost (stop : Derivation .setChar) : Derivation .setAtom
  | setGroup (set : Derivation .set) : Derivation .setAtom
  | setChar (left : Nat) (c : Derivation .setLiteral) (right : Nat) : Derivation .setChar
  | setLiteral (l : Letter .inner) : Derivation .setLiteral

/-- The items of a repetition. -/
inductive Derivations : Nonterminal → Type where
  | nil {n : Nonterminal} : Derivations n
  | cons {n : Nonterminal} (first : Derivation n) (more : Derivations n) : Derivations n

end

/-! ## The text -/

mutual

def Derivation.written : {n : Nonterminal} → Derivation n → List Char
  | _, .regex first more => first.written ++ more.written ['|']
  | _, .sequence items => items.written []
  | _, .quantified atom quantifier => atom.written ++ (quantifier.map Quantifier.mark).toList
  | _, .letter l => l.written
  | _, .oneOf set => '[' :: set.written ++ [']']
  | _, .group regex => '(' :: regex.written ++ [')']
  | _, .set first more => first.written ++ more.written ['|']
  | _, .meet first more => first.written ++ more.written ['&']
  | _, .complement atom => '~' :: atom.written
  | _, .factor atom => atom.written
  | _, .only c => c.written
  | _, .atLeast start => start.written ++ ['-']
  | _, .between start stop => start.written ++ '-' :: stop.written
  | _, .atMost stop => '-' :: stop.written
  | _, .setGroup set => '(' :: set.written ++ [')']
  | _, .setChar left c right => .replicate left '<' ++ c.written ++ .replicate right '>'
  | _, .setLiteral l => l.written

/-- The items one after the other, each behind the mark. -/
def Derivations.written (mark : List Char) : {n : Nonterminal} → Derivations n → List Char
  | _, .nil => []
  | _, .cons first more => mark ++ first.written ++ more.written mark

end

/-! ## The tree -/

abbrev Nonterminal.Value : Nonterminal → Type
  | .regex | .sequence | .quantified | .atom => Pattern
  | .set | .meet | .factor | .setAtom => CharClass
  | .setChar | .setLiteral => ClassChar

/-- The kind of item that stands for a value on the stack. -/
def Nonterminal.item : (n : Nonterminal) → n.Value → Item
  | .regex | .sequence | .quantified | .atom => .pattern
  | .set | .meet | .factor | .setAtom => .charClass
  | .setChar | .setLiteral => .classChar

mutual

/-- What a derivation denotes. Alternatives, unions and intersections are pairs nested to the left,
concatenation is a single sequence. -/
def Derivation.value : {n : Nonterminal} → Derivation n → n.Value
  | _, .regex first more =>
    (more.values : List Pattern).foldl (fun a b => .alternative [a, b]) (first.value : Pattern)
  | _, .sequence items => Pattern.concat items.values
  | _, .quantified atom none => atom.value
  | _, .quantified atom (some quantifier) => quantifier.apply atom.value
  | _, .letter l => l.value Pattern.single Pattern.escape Pattern.hex
  | _, .oneOf set => Pattern.oneOf set.value
  | _, .group regex => regex.value
  | _, .set first more =>
    (more.values : List CharClass).foldl (fun a b => .union [a, b]) (first.value : CharClass)
  | _, .meet first more =>
    (more.values : List CharClass).foldl (fun a b => .intersection [a, b]) (first.value : CharClass)
  | _, .complement atom => CharClass.complement atom.value
  | _, .factor atom => atom.value
  | _, .only c => CharClass.only c.value
  | _, .atLeast start => CharClass.greaterEqual start.value
  | _, .between start stop =>
    if start.value = stop.value then CharClass.only start.value
    else CharClass.between start.value stop.value
  | _, .atMost stop => CharClass.lessEqual stop.value
  | _, .setGroup set => set.value
  | _, .setChar left c right =>
    if right = left then c.value else ClassChar.offset ((right : Int) - left) c.value
  | _, .setLiteral l => l.value ClassChar.single ClassChar.escape ClassChar.hex

def Derivations.values : {n : Nonterminal} → Derivations n → List n.Value
  | _, .nil => []
  | _, .cons first more => first.value :: more.values

end

/-! ## Flat trees -/

/-- Neither the empty string nor a concatenation. -/
def IsFactor : Pattern → Prop
  | .emptyString | .sequence _ => False
  | _ => True

/-- The factors that a tree is put together from, in order: none for the empty string, two or more for
a concatenation, and for any other tree the tree itself. -/
inductive Parts : Pattern → List Pattern → Prop where
  | none : Parts .emptyString []
  | one {p : Pattern} : p.IsFactor → Parts p [p]
  | many {ps : List Pattern} :
      2 ≤ ps.length → (∀ p ∈ ps, p.IsFactor) → Parts (.sequence ps) ps

mutual

/-- Every concatenation in the tree has at least two items, all of them factors. -/
def Flat : Pattern → Prop
  | .sequence items => 2 ≤ items.length ∧ (∀ p ∈ items, p.IsFactor) ∧ AllFlat items
  | .alternative items => AllFlat items
  | .optRep body _ _ => body.Flat
  | _ => True

def AllFlat : List Pattern → Prop
  | [] => True
  | p :: ps => p.Flat ∧ AllFlat ps

end

end Munch.Pattern
