-- SUMMARY: Numbers in settings files and how they are written.
import Munch.Toml.Quoted

/-!
# Numbers of settings files

Numbers are only checked for their form and size, as no setting is a number.
-/

namespace Munch.Toml

/-! ## Digits -/

/-- The digits, if single underscores stand between digits only. -/
def ungrouped? (isDigit : Char → Bool) : List Char → Option (List Char)
  | [] => none
  | [c] => if isDigit c then some [c] else none
  | c :: '_' :: rest => if isDigit c then (ungrouped? isDigit rest).map (c :: ·) else none
  | c :: rest => if isDigit c then (ungrouped? isDigit rest).map (c :: ·) else none

def decimal? (cs : List Char) : Option (List Char) := ungrouped? Char.isDigit cs

/-- A number has no leading zero. -/
def integerPart? (cs : List Char) : Option (List Char) := do
  let digits ← decimal? cs
  if digits.head? = some '0' && digits.length > 1 then none else some digits

def unsigned (cs : List Char) : List Char :=
  match cs with
  | '+' :: rest => rest
  | '-' :: rest => rest
  | _ => cs

def valueOf (base : Nat) (digits : List Char) : Nat :=
  digits.foldl (fun n c => base * n + (hexDigit? c).getD 0) 0

/-! ## Integers -/

/-- The greatest integer, which has 64 bits with its sign. -/
def greatestInteger : Nat := 0x7FFFFFFFFFFFFFFF

/-- There is one more negative integer than there are positive ones. -/
def isDecimal (cs : List Char) : Bool :=
  match integerPart? (unsigned cs) with
  | some digits =>
    valueOf 10 digits ≤ if cs.head? = some '-' then greatestInteger + 1 else greatestInteger
  | none => false

/-- Integers of other bases carry their base in front and no sign. -/
def isBased (cs : List Char) : Bool :=
  let check (base : Nat) (digits : List Char) : Bool :=
    match ungrouped? (fun c => (hexDigit? c).any (· < base)) digits with
    | some digits => valueOf base digits ≤ greatestInteger
    | none => false
  match cs with
  | '0' :: 'x' :: rest => check 16 rest
  | '0' :: 'o' :: rest => check 8 rest
  | '0' :: 'b' :: rest => check 2 rest
  | _ => false

/-! ## Floating point numbers -/

/-- A number as it is written: the digits before the point, those behind it, and the power of ten
that it is multiplied by. -/
structure Scientific where
  whole : List Char
  fraction : List Char
  exponent : Int

/-- Digits with a sign, which may be missing. -/
def exponent? (cs : List Char) : Option Int := do
  let magnitude := valueOf 10 (← decimal? (unsigned cs))
  return if cs.head? = some '-' then -(magnitude : Int) else magnitude

/-- A number with a fraction, an exponent or both. -/
def scientific? (cs : List Char) : Option Scientific := do
  let isExponentMark (c : Char) : Bool := c = 'e' || c = 'E'
  let mantissa := cs.takeWhile (!isExponentMark ·)
  let whole := mantissa.takeWhile (· != '.')
  let digits ← integerPart? whole
  match mantissa.drop whole.length, cs.drop mantissa.length with
  | [], [] => none
  | [], _ :: exponent => return ⟨digits, [], ← exponent? exponent⟩
  | _ :: fraction, [] => return ⟨digits, ← decimal? fraction, 0⟩
  | _ :: fraction, _ :: exponent => return ⟨digits, ← decimal? fraction, ← exponent? exponent⟩

/-- The least number that is rounded to infinity: it lies half a step of 2 ^ 971 above the greatest
number of 64 bits, which has 53 bits set, and the tie goes to the even neighbour. -/
def leastInfinite : Nat := 0x3FFFFFFFFFFFFF <<< 970

/-- How many digits `leastInfinite` has. -/
def leastInfiniteWidth : Nat := 309

/-- Whether a number is rounded to infinity. As the least such number is an integer, the digits
before the point decide. They are only written out if there are as many of them as it has, so an
exponent of any size is dealt with at once. -/
def Scientific.isInfinite (x : Scientific) : Bool :=
  let significant := (x.whole ++ x.fraction).dropWhile (· = '0')
  let width : Int := significant.length - x.fraction.length + x.exponent
  !significant.isEmpty &&
    (leastInfiniteWidth < width ||
      (width = leastInfiniteWidth &&
        leastInfinite ≤ valueOf 10
          ((significant ++ List.replicate leastInfiniteWidth '0').take leastInfiniteWidth)))

/-- Floating point numbers may be infinite or undefined. Infinity has to be called by its name,
while a negative number of any size is taken. -/
def isFloat (cs : List Char) : Bool :=
  let body := unsigned cs
  body = "inf".toList || body = "nan".toList ||
    (scientific? body).any fun x => cs.head? = some '-' || !x.isInfinite

def isNumber (cs : List Char) : Bool := isDecimal cs || isBased cs || isFloat cs

end Munch.Toml
