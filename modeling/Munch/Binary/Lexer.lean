-- SUMMARY: The binary form of lexers.
import Munch.Binary.Basic
import Munch.Lexer

/-!
# Binary form of lexers

A lexer is written as a header and the list of its modes, each with its name
and its automaton. Reading checks the header first, then takes the bytes apart,
and at last looks whether every automaton is well formed; what was read can be
used without fear of faults.
-/

namespace Munch

open Binary

/-! ## Parts -/

/-- A set is the list of its bounds. -/
instance {σ : Type} [Symbol σ] [Coded σ] : Coded (RangeSet σ) where
  write a := write a.bounds
  read bytes := do
    let (bounds, rest) ← (read bytes : Except Cause (List σ × List UInt8))
    match RangeSet.ofBounds? bounds with
    | some a => return (a, rest)
    | none => throw .bounds

variable {σ α : Type} [Symbol σ] [Coded σ] [Coded α]

instance : Coded (Dfa.State σ α) where
  write s := write s.transitions ++ write s.code
  read bytes := do
    let ((transitions, code), rest) ← read bytes
    return (⟨transitions, code⟩, rest)

instance : Coded (Dfa σ α) where
  write d := write d.start ++ write d.dead ++ write d.states.toList
  read bytes := do
    let ((start, dead, states), rest) ←
      (read bytes : Except Cause ((Nat × Option Nat × List (Dfa.State σ α)) × List UInt8))
    return (⟨start, dead, states.toArray⟩, rest)

/-! ## Lexers -/

namespace Lexer

/-- The six letters that every written lexer begins with. -/
def header : List UInt8 := "LEXGEN".toList.map fun c => UInt8.ofNat c.toNat

inductive DecodeError where
  /-- The header is missing, or some automaton is not well formed. -/
  | format
  /-- The bytes behind the header are not those of a lexer. -/
  | encoding (cause : Cause)
deriving DecidableEq

def DecodeError.message : DecodeError → String
  | format => "not a lexgen compiled lexer file"
  | encoding _ => "invalid lexgen compiled lexer file"

variable {κ : Type} [Ord κ] [Coded κ]

def encode (l : Lexer α κ) : List UInt8 := header ++ write l.modes.entries

/-- Of several modes with one name the last counts. -/
def decode [Std.TransOrd κ] (bytes : List UInt8) : Except DecodeError (Lexer α κ) :=
  if header.isPrefixOf bytes then
    match (read (bytes.drop header.length) :
        Except Cause (List (κ × Dfa Char α) × List UInt8)) with
    | .error cause => .error (.encoding cause)
    | .ok (_, _ :: _) => .error (.encoding .trailing)
    | .ok (modes, []) =>
      let l : Lexer α κ := ⟨.ofList modes⟩
      if l.WellFormed then .ok l else .error .format
  else .error .format

end Lexer

end Munch
