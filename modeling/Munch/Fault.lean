-- SUMMARY: What can go wrong in an automaton that was put together by hand.
import Munch.Symbol.Text

/-!
# Faults

States are numbers, and an automaton may name states that it does not have or
lead from one state to two with the same symbol. Nothing goes wrong until such
a place is used; then the operation ends in a fault. Automata made from rules
have none.
-/

namespace Munch

inductive Fault (σ : Type) where
  /-- A state was used that does not exist. -/
  | noSuchState (id : Nat)
  /-- A transition was added whose set meets that of another one from the same state. -/
  | overlap (source : Nat)
  /-- Two transitions from a state hold the symbol that was read. -/
  | ambiguous (state : Nat) (symbol : σ)
  /-- Two transitions from a state hold symbols of one piece of the domain. -/
  | ambiguousPiece (state : Nat)
deriving DecidableEq

/-- What is said of a fault; a missing state goes without words. -/
def Fault.message? {σ : Type} [SymbolText σ] : Fault σ → Option String
  | noSuchState _ => none
  | overlap source => some s!"overlapping transitions leaving state {source}"
  | ambiguous state symbol =>
    some s!"multiple transitions from state {state} accept {SymbolText.literal symbol}"
  | ambiguousPiece state =>
    some s!"multiple transitions from state {state} accept the same symbols"

end Munch
