-- SUMMARY: The two written forms of a set, its ranges and its bounds.
import Munch.RangeSet.Basic
import Munch.Symbol.Text

/-!
# Text of sets

The display lists the ranges of a set, a range of one symbol as that symbol.
The debug form lists the bounds.
-/

namespace Munch.RangeSet

open Munch.Symbol (rank)

variable {σ : Type} [Symbol σ] [SymbolText σ]

def displayRange (s e : σ) : String :=
  if rank s = rank e then SymbolText.plain s else SymbolText.plain s ++ "-" ++ SymbolText.plain e

def display (a : RangeSet σ) : String :=
  "[" ++ ", ".intercalate (a.ranges.map fun (s, e) => displayRange s e) ++ "]"

def debug (a : RangeSet σ) : String :=
  "RangeSet[" ++ ", ".intercalate (a.bounds.map SymbolText.literal) ++ "]"

/-- What is said of bounds that make no set. -/
def boundsMessage : String := "range set boundaries are not strictly increasing"

end Munch.RangeSet
