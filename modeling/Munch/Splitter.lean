-- SUMMARY: Partitions of the symbol domain, refined by sets.
import Munch.RangeSet.Basic

/-!
# Splitters

A splitter holds a partition of the domain into nonempty sets. It starts with
the whole domain as its only piece, and splitting by a set breaks every piece
into the part inside and the part outside. After the sets `s₁, …, sₙ` each
piece lies wholly inside or wholly outside of every `sᵢ`.
-/

namespace Munch

structure Splitter (σ : Type) [Symbol σ] where
  pieces : List (RangeSet σ)

namespace Splitter

variable {σ : Type} [Symbol σ]

/-- One piece, the whole domain. -/
def whole : Splitter σ := ⟨[RangeSet.full]⟩

instance : Inhabited (Splitter σ) := ⟨whole⟩

/-- The part of `piece` inside `set` and the part outside, without empty ones. -/
def halves (set piece : RangeSet σ) : List (RangeSet σ) :=
  [piece ∩ set, piece \ set].filter (!·.isEmpty)

def split (p : Splitter σ) (set : RangeSet σ) : Splitter σ := ⟨p.pieces.flatMap (halves set)⟩

def splitAll (p : Splitter σ) (sets : List (RangeSet σ)) : Splitter σ := sets.foldl split p

/-- The pieces of the domain that no set in `sets` cuts. -/
def atoms (sets : List (RangeSet σ)) : List (RangeSet σ) := (whole.splitAll sets).pieces

end Splitter

end Munch
