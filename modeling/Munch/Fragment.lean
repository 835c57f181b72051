-- SUMMARY: Shapes of automata: what a rule matches, before states are made for it.
import Munch.RangeSet.Basic

/-!
# Fragments

A fragment describes a language over the symbols by its shape. `sequence`,
`alternative` and `optRep` may be built as they are; the functions `concat`,
`choice` and `repeated` build the same languages without the trivial cases.
-/

namespace Munch

inductive Fragment (σ : Type) [Symbol σ] where
  /-- No word at all. -/
  | nothing
  | emptyString
  /-- One symbol from the set. -/
  | oneOf (set : RangeSet σ)
  | sequence (items : List (Fragment σ))
  | alternative (items : List (Fragment σ))
  /-- The body, or nothing as well (`optional`), or the body many times (`repeating`), or both. -/
  | optRep (body : Fragment σ) (optional repeating : Bool)

namespace Fragment

variable {σ : Type} [Symbol σ]

instance : Inhabited (Fragment σ) := ⟨nothing⟩

/-- The items one after the other. -/
def concat : List (Fragment σ) → Fragment σ
  | [] => emptyString
  | [item] => item
  | items => sequence items

/-- Any one of the items. -/
def choice : List (Fragment σ) → Fragment σ
  | [] => nothing
  | [item] => item
  | items => alternative items

/-- The body, as often as the two flags allow; without flags once. -/
def repeated (body : Fragment σ) (optional repeating : Bool) : Fragment σ :=
  if optional || repeating then optRep body optional repeating else body

/-- Exactly the text. -/
def literal (text : List σ) : Fragment σ := concat (text.map fun x => oneOf (.only x))

end Fragment

end Munch
