-- SUMMARY: Evaluation of pattern trees into characters, sets and fragments.
import Munch.Fragment
import Munch.Pattern.Basic
import Munch.Pattern.Error

/-!
# Evaluation of patterns

Characters of a class evaluate to characters, classes to sets and patterns to
fragments. The errors are those of hexadecimal escapes and shifts; of several
the leftmost is reported.
-/

namespace Munch

/-! ## Characters -/

namespace ClassChar

/-- The control character a letter stands for after a backslash; any other character is itself. -/
def unescape : Char → Char
  | 'a' => '\x07'
  | 'b' => '\x08'
  | 't' => '\t'
  | 'n' => '\n'
  | 'v' => '\x0B'
  | 'f' => '\x0C'
  | 'r' => '\r'
  | c => c

/-- Values of escapes stop growing here, the largest signed number of 64 bits. -/
def valueCap : Nat := 0x7FFFFFFFFFFFFFFF

/-- The value of a hexadecimal digit in either letter case. -/
def hexDigit? (c : Char) : Option Nat :=
  if '0' ≤ c && c ≤ '9' then some (c.toNat - '0'.toNat)
  else if 'a' ≤ c && c ≤ 'f' then some (c.toNat - 'a'.toNat + 10)
  else if 'A' ≤ c && c ≤ 'F' then some (c.toNat - 'A'.toNat + 10)
  else none

/-- The number read so far with one more digit, up to the cap. -/
def appendDigit (value digit : Nat) : Nat := min (min (value * 16) valueCap + digit) valueCap

/-- The value of hexadecimal digits after those that make up `value`. -/
def hexValue (value : Nat) : List Char → Except PatternError Nat
  | [] => .ok value
  | c :: rest =>
    match hexDigit? c with
    | some digit => hexValue (appendDigit value digit) rest
    | none => .error (.hexDigit c)

/-- The character with the code point `value`. -/
def ofCodePoint (value : Int) : Except PatternError Char :=
  if h : 0 ≤ value ∧ value.toNat.isValidChar then .ok (Char.ofNatAux value.toNat h.2)
  else .error (.codePoint value)

def ofHex (digits : List Char) : Except PatternError Char :=
  match hexValue 0 digits with
  | .ok value => ofCodePoint value
  | .error e => .error e

def eval : ClassChar → Except PatternError Char
  | single c => .ok c
  | escape c => .ok (unescape c)
  | hex digits => ofHex digits
  | offset distance item =>
    match item.eval with
    | .ok c => ofCodePoint (c.toNat + distance)
    | .error e => .error e

end ClassChar

/-! ## Classes -/

/-- The characters from one of the two to the other. -/
def RangeSet.between (a b : Char) : RangeSet Char :=
  if a ≤ b then range a b else range b a

mutual

def CharClass.eval : CharClass → Except PatternError (RangeSet Char)
  | .between start stop => do return .between (← start.eval) (← stop.eval)
  | .greaterEqual start => .greaterEqual <$> start.eval
  | .lessEqual stop => .lessEqual <$> stop.eval
  | .only c => .only <$> c.eval
  | .complement set => .complement <$> set.eval
  | .union sets => .unionAll <$> CharClass.evalAll sets
  | .intersection sets => .intersectionAll <$> CharClass.evalAll sets

def CharClass.evalAll : List CharClass → Except PatternError (List (RangeSet Char))
  | [] => .ok []
  | set :: sets => do return (← set.eval) :: (← CharClass.evalAll sets)

end

/-! ## Patterns -/

mutual

def Pattern.toFragment : Pattern → Except PatternError (Fragment Char)
  | .emptyString => .ok .emptyString
  | .single c => .ok (.oneOf (.only c))
  | .escape c => .ok (.oneOf (.only (ClassChar.unescape c)))
  | .hex digits => (fun c => .oneOf (.only c)) <$> ClassChar.ofHex digits
  | .oneOf set => .oneOf <$> set.eval
  | .sequence items => .concat <$> Pattern.toFragments items
  | .alternative items => .choice <$> Pattern.toFragments items
  | .optRep body optional repeating => (·.repeated optional repeating) <$> body.toFragment

def Pattern.toFragments : List Pattern → Except PatternError (List (Fragment Char))
  | [] => .ok []
  | item :: items => do return (← item.toFragment) :: (← Pattern.toFragments items)

end

end Munch
