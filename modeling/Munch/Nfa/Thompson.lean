-- SUMMARY: The automaton of a fragment, and of a list of rules.
import Munch.Fragment
import Munch.Nfa.Basic

/-!
# Automata of fragments

Every fragment becomes a part of the automaton with one entry and one exit.
The part is left through its exit only, and the exit has no edges of its own
but those that lead back into the part. The automaton of a list of rules has a
root with a silent edge to the entry of each rule, and the exit of a rule
carries its code.
-/

namespace Munch

namespace Nfa

/-- Where a part of an automaton is entered and left. -/
structure Ends where
  entry : Nat
  exit : Nat
deriving DecidableEq

end Nfa

open Nfa (Ends Builder)

variable {σ α : Type} [Symbol σ]

mutual

/-- Adds the states and edges of a fragment. -/
def Fragment.build (b : Builder σ α) : Fragment σ → Builder σ α × Ends
  | .nothing => (b.newState.newState, ⟨b.size, b.size + 1⟩)
  | .emptyString =>
    (b.newState.newState.addSilent b.size (b.size + 1), ⟨b.size, b.size + 1⟩)
  | .oneOf set =>
    (b.newState.newState.addTransition b.size set (b.size + 1), ⟨b.size, b.size + 1⟩)
  | .sequence items =>
    let (b', last) := Fragment.buildChain b.newState b.size items
    (b'.newState.addSilent last b'.size, ⟨b.size, b'.size⟩)
  | .alternative items =>
    let ends : Ends := ⟨b.size, b.size + 1⟩
    (Fragment.buildBranches b.newState.newState ends items, ends)
  | .optRep body optional repeating =>
    let (b', inner) := Fragment.build b.newState body
    let ends : Ends := ⟨b.size, b'.size⟩
    let b' := (b'.newState.addSilent ends.entry inner.entry).addSilent inner.exit ends.exit
    let b' := if optional then b'.addSilent ends.entry ends.exit else b'
    let b' := if repeating then b'.addSilent ends.exit ends.entry else b'
    (b', ends)

/-- Adds the items one after the other behind the state `last`, and gives the exit of the last one. -/
def Fragment.buildChain (b : Builder σ α) (last : Nat) : List (Fragment σ) → Builder σ α × Nat
  | [] => (b, last)
  | item :: items =>
    let (b', ends) := Fragment.build b item
    Fragment.buildChain (b'.addSilent last ends.entry) ends.exit items

/-- Adds the items side by side between entry and exit. -/
def Fragment.buildBranches (b : Builder σ α) (outer : Ends) : List (Fragment σ) → Builder σ α
  | [] => b
  | item :: items =>
    let (b', ends) := Fragment.build b item
    Fragment.buildBranches
      ((b'.addSilent outer.entry ends.entry).addSilent ends.exit outer.exit) outer items

end

namespace Nfa

/-- Adds a rule to an automaton whose root is state 0. -/
def Builder.addRule (b : Builder σ α) (rule : Fragment σ × α) : Builder σ α :=
  let (b', ends) := rule.1.build b
  (b'.addSilent 0 ends.entry).setCode ends.exit rule.2

/-- The automaton of a list of fragments with their codes. -/
def ofRules (rules : List (Fragment σ × α)) : Nfa σ α :=
  (rules.foldl Builder.addRule Builder.empty.newState).build 0

end Nfa

end Munch
