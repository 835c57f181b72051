-- SUMMARY: Lists of labelled sets, in which each label stands once.
import Munch.RangeSet.Basic

/-!
# Labelled sets

The transitions that leave a state are a list of sets with their destinations.
Symbols that lead to one destination are gathered into one set.
-/

namespace Munch.RangeSet

variable {σ κ : Type} [Symbol σ] [DecidableEq κ]

/-- Adds the symbols of `set` under `label`, at the place where the label came first. -/
def gather (entries : List (RangeSet σ × κ)) (set : RangeSet σ) (label : κ) :
    List (RangeSet σ × κ) :=
  match entries with
  | [] => [(set, label)]
  | (s, k) :: rest => if k = label then (s ∪ set, k) :: rest else (s, k) :: gather rest set label

/-- All entries, gathered by their labels. -/
def gatherAll (entries : List (RangeSet σ × κ)) : List (RangeSet σ × κ) :=
  entries.foldl (fun acc e => gather acc e.1 e.2) []

end Munch.RangeSet
