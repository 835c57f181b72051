-- SUMMARY: The states of an automaton after a word, by sets and by paths, and the code of a set.
import Munch.Nfa.Moves

/-!
# Words

After a word the automaton may be in any of a set of states, found symbol by
symbol, or seen from a single state: wherever a path with that word leads.
-/

namespace Munch.Nfa

variable {σ α : Type} [Symbol σ]

/-- Every state that is named exists. -/
def WellFormed (n : Nfa σ α) : Prop :=
  n.start < n.size ∧ ∀ s ∈ n.states.toList, ∀ e ∈ s.edges, e.target < n.size

instance (n : Nfa σ α) : Decidable n.WellFormed := by unfold WellFormed; infer_instance

/-- The closed set that a symbol leads to. -/
def step (n : Nfa σ α) (s : StateSet) (x : σ) : StateSet :=
  n.closure (.ofList (((n.outgoing s).filter (·.1.contains x)).map Prod.snd))

/-- The states after a word. -/
def after (n : Nfa σ α) (word : List σ) : StateSet := word.foldl n.step (n.closure {n.start})

/-- Edges as a relation between a source, a label and a target. -/
abbrev Edges (σ : Type) [Symbol σ] := Nat → Option (RangeSet σ) → Nat → Prop

/-- A way from one state to another that reads a word. -/
inductive Trail (edge : Edges σ) : Nat → List σ → Nat → Prop where
  | stay (id : Nat) : Trail edge id [] id
  | silent {id target last : Nat} {word : List σ} :
      edge id none target → Trail edge target word last → Trail edge id word last
  | read {id target last : Nat} {set : RangeSet σ} {x : σ} {word : List σ} :
      edge id (some set) target → x ∈ set → Trail edge target word last →
      Trail edge id (x :: word) last

/-- A way by the edges of the automaton. -/
abbrev Path (n : Nfa σ α) : Nat → List σ → Nat → Prop :=
  Trail fun id label target => ⟨label, target⟩ ∈ n.edges id

/-- What the greatest code of a set is: none if no state has one, and else one that some state has
and none exceeds. -/
def IsGreatestCode [Ord α] (n : Nfa σ α) (s : StateSet) : Option α → Prop
  | none => ∀ i ∈ s, n.code? i = none
  | some c => (∃ i ∈ s, n.code? i = some c) ∧
      ∀ i ∈ s, ∀ c', n.code? i = some c' → (compare c' c).isLE

end Munch.Nfa
