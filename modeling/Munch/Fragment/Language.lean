-- SUMMARY: The words that a fragment matches.
import Munch.Fragment

/-!
# Languages of fragments

The words of a sequence are those of its items one after the other, the words
of an alternative those of any item. A repetition may leave out its body if it
is optional, and go through it again if it is repeating.
-/

namespace Munch.Fragment

variable {σ : Type} [Symbol σ]

inductive Matches : Fragment σ → List σ → Prop where
  | emptyString : Matches emptyString []
  | oneOf {set : RangeSet σ} {x : σ} : x ∈ set → Matches (oneOf set) [x]
  | done : Matches (sequence []) []
  | next {item : Fragment σ} {items : List (Fragment σ)} {u v : List σ} :
      Matches item u → Matches (sequence items) v → Matches (sequence (item :: items)) (u ++ v)
  | branch {item : Fragment σ} {items : List (Fragment σ)} {w : List σ} :
      item ∈ items → Matches item w → Matches (alternative items) w
  | skip {body : Fragment σ} {repeating : Bool} : Matches (optRep body true repeating) []
  | once {body : Fragment σ} {optional repeating : Bool} {w : List σ} :
      Matches body w → Matches (optRep body optional repeating) w
  | again {body : Fragment σ} {optional : Bool} {u v : List σ} :
      Matches body u → Matches (optRep body optional true) v →
      Matches (optRep body optional true) (u ++ v)

end Munch.Fragment
