-- SUMMARY: Binary forms of numbers, text, options, lists and pairs.

/-!
# Binary forms

Every form tells where it ends, so a reader gives what it read together with
the bytes behind it, and forms are put together by writing them one after the
other. Numbers take as many bytes as they need; a reader also accepts a longer
form of a small number.
-/

namespace Munch.Binary

/-- Why bytes cannot be read. -/
inductive Cause where
  /-- The bytes end too early, or no value has this form. -/
  | malformed
  /-- The bounds of a set do not ascend. -/
  | bounds
  /-- Bytes are left when everything has been read. -/
  | trailing
deriving DecidableEq

abbrev Reader (β : Type) := List UInt8 → Except Cause (β × List UInt8)

/-- Values with a binary form. -/
class Coded (β : Type) where
  write : β → List UInt8
  read : Reader β

export Coded (write read)

/-! ## Numbers -/

/-- The lowest bytes of a number, the least significant one first. -/
def littleEndian : Nat → Nat → List UInt8
  | 0, _ => []
  | width + 1, n => UInt8.ofNat (n % 256) :: littleEndian width (n / 256)

def ofLittleEndian : List UInt8 → Nat
  | [] => 0
  | b :: rest => b.toNat + 256 * ofLittleEndian rest

/-- Numbers up to 250 are a single byte; larger ones have 2, 4 or 8 bytes behind a byte that tells
how many. Numbers have at most 64 bits. -/
def writeNat (n : Nat) : List UInt8 :=
  if n < 251 then [UInt8.ofNat n]
  else if n < 0x10000 then 0xFB :: littleEndian 2 n
  else if n < 0x100000000 then 0xFC :: littleEndian 4 n
  else 0xFD :: littleEndian 8 n

/-- A number of the given width. -/
def readFixed (width : Nat) : Reader Nat := fun bytes =>
  if bytes.length < width then .error .malformed
  else .ok (ofLittleEndian (bytes.take width), bytes.drop width)

def readNat : Reader Nat
  | [] => .error .malformed
  | b :: rest =>
    if b < 0xFB then .ok (b.toNat, rest)
    else if b = 0xFB then readFixed 2 rest
    else if b = 0xFC then readFixed 4 rest
    else if b = 0xFD then readFixed 8 rest
    else .error .malformed

instance : Coded Nat := ⟨writeNat, readNat⟩

/-- Signed numbers in the order 0, -1, 1, -2, 2, … -/
def zigzag (n : Int) : Nat := if n < 0 then 2 * (-n - 1).toNat + 1 else 2 * n.toNat

def unzigzag (n : Nat) : Int := if n % 2 = 0 then (n / 2 : Nat) else -((n / 2 : Nat) : Int) - 1

instance : Coded Int64 where
  write n := writeNat (zigzag n.toInt)
  read bytes := do
    let (n, rest) ← readNat bytes
    return (Int64.ofInt (unzigzag n), rest)

/-! ## Text -/

/-- A character is its encoding in one to four bytes. -/
instance : Coded Char where
  write c := String.utf8EncodeChar c
  read bytes :=
    match (bytes.take 4).toByteArray.utf8DecodeChar? 0 with
    | some c => .ok (c, bytes.drop c.utf8Size)
    | none => .error .malformed

/-- A string is the number of its bytes and the encoding of its characters. -/
instance : Coded String where
  write s := writeNat s.utf8ByteSize ++ s.toList.flatMap String.utf8EncodeChar
  read bytes := do
    let (size, rest) ← readNat bytes
    if rest.length < size then throw .malformed
    match String.fromUTF8? (rest.take size).toByteArray with
    | some s => return (s, rest.drop size)
    | none => throw .malformed

/-! ## Composition -/

/-- A byte tells whether a value follows. -/
instance {β : Type} [Coded β] : Coded (Option β) where
  write
    | none => [0]
    | some x => 1 :: write x
  read
    | 0 :: rest => .ok (none, rest)
    | 1 :: rest => do
      let (x, rest) ← read rest
      return (some x, rest)
    | _ => .error .malformed

instance {β γ : Type} [Coded β] [Coded γ] : Coded (β × γ) where
  write p := write p.1 ++ write p.2
  read bytes := do
    let (x, rest) ← read bytes
    let (y, rest) ← read rest
    return ((x, y), rest)

def readMany {β : Type} [Coded β] : Nat → Reader (List β)
  | 0, bytes => .ok ([], bytes)
  | count + 1, bytes => do
    let (x, rest) ← read bytes
    let (xs, rest) ← readMany count rest
    return (x :: xs, rest)

/-- A list is its length and its items. -/
instance {β : Type} [Coded β] : Coded (List β) where
  write xs := writeNat xs.length ++ xs.flatMap write
  read bytes := do
    let (length, rest) ← readNat bytes
    readMany length rest

end Munch.Binary
