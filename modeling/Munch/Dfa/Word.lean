-- SUMMARY: The state of an automaton after a word, and what the longest match of an input is.
import Munch.Dfa.Basic

/-!
# Words
-/

namespace Munch.Dfa

variable {σ α : Type} [Symbol σ]

/-- The state that a word leads to from `id`, if each of its symbols leads somewhere. -/
def run? (d : Dfa σ α) (id : Nat) : List σ → Except (Fault σ) (Option Nat)
  | [] => .ok (some id)
  | x :: rest => do
    match ← d.next? id x with
    | some target => d.run? target rest
    | none => return none

/-- The code that a word ends on from `id`; none if it leads nowhere or to the dead state. -/
def codeAfter? (d : Dfa σ α) (id : Nat) (word : List σ) : Except (Fault σ) (Option α) := do
  match ← d.run? id word with
  | some target => if d.dead = some target then return none else d.code? target
  | none => return none

/-- No word tells the two states apart by the code that it ends on. -/
def Indistinguishable (d : Dfa σ α) (a b : Nat) : Prop :=
  ∀ word, d.codeAfter? a word = d.codeAfter? b word

/-- A word leads nowhere from both states or from neither. -/
def StopsAlike (d : Dfa σ α) (a b : Nat) : Prop :=
  ∀ word, d.run? a word = .ok none ↔ d.run? b word = .ok none

/-- The dead state, if there is one, has no transitions and no code. -/
def DeadInert (d : Dfa σ α) : Prop :=
  ∀ id ∈ d.dead, ∀ s ∈ d.states[id]?, s.transitions = [] ∧ s.code = none

instance (d : Dfa σ α) [DecidableEq α] : Decidable d.DeadInert := by
  unfold DeadInert
  infer_instance

end Munch.Dfa
