-- SUMMARY: Deterministic automata, their steps and the longest match.
import Munch.Fault
import Munch.RangeSet.Basic

/-!
# Deterministic automata

A state has transitions, each a set of symbols with a target, and perhaps an
accept code. No symbol should be in two of the sets that leave a state. The
automaton may name a dead state, from which no input leads to a match; matching
ends where it is entered.
-/

namespace Munch

namespace Dfa

structure State (σ α : Type) [Symbol σ] where
  transitions : List (RangeSet σ × Nat)
  code : Option α
deriving DecidableEq

end Dfa

structure Dfa (σ α : Type) [Symbol σ] where
  start : Nat
  dead : Option Nat
  states : Array (Dfa.State σ α)
deriving DecidableEq

namespace Dfa

variable {σ α β : Type} [Symbol σ]

instance : Inhabited (State σ α) := ⟨⟨[], none⟩⟩

instance : Inhabited (Dfa σ α) := ⟨⟨0, none, #[]⟩⟩

def size (d : Dfa σ α) : Nat := d.states.size

/-! ## Building -/

/-- Adds a transition to the state with number `source`. The set must not meet those already there;
an empty set adds nothing. -/
def State.addTransition? (s : State σ α) (source : Nat) (set : RangeSet σ) (target : Nat) :
    Except (Fault σ) (State σ α) :=
  if set.isEmpty then .ok s
  else if s.transitions.all (·.1.isDisjoint set) then
    .ok { s with transitions := s.transitions ++ [(set, target)] }
  else .error (.overlap source)

structure Builder (σ α : Type) [Symbol σ] where
  states : Array (State σ α)

namespace Builder

def empty : Builder σ α := ⟨#[]⟩

instance : Inhabited (Builder σ α) := ⟨empty⟩

def size (b : Builder σ α) : Nat := b.states.size

def newState (b : Builder σ α) (code : Option α) : Builder σ α := ⟨b.states.push ⟨[], code⟩⟩

def addTransition? (b : Builder σ α) (source : Nat) (set : RangeSet σ) (target : Nat) :
    Except (Fault σ) (Builder σ α) :=
  if set.isEmpty then .ok b
  else
    match b.states[source]? with
    | none => .error (.noSuchState source)
    | some s => do
      let s ← s.addTransition? source set target
      return ⟨b.states.setIfInBounds source s⟩

def build (b : Builder σ α) (start : Nat) (dead : Option Nat) : Dfa σ α := ⟨start, dead, b.states⟩

end Builder

/-! ## Well-formed automata -/

/-- Every state that is named exists, and no symbol is in two sets that leave the same state. -/
def WellFormed (d : Dfa σ α) : Prop :=
  d.start < d.size ∧ (∀ id ∈ d.dead, id < d.size) ∧
    ∀ s ∈ d.states.toList, (∀ t ∈ s.transitions, t.2 < d.size) ∧
      s.transitions.Pairwise fun t u => t.1.isDisjoint u.1 = true

instance (d : Dfa σ α) : Decidable d.WellFormed := by unfold WellFormed; infer_instance

/-! ## Steps -/

def state? (d : Dfa σ α) (id : Nat) : Except (Fault σ) (State σ α) :=
  match d.states[id]? with
  | some s => .ok s
  | none => .error (.noSuchState id)

def code? (d : Dfa σ α) (id : Nat) : Except (Fault σ) (Option α) := State.code <$> d.state? id

def transitions? (d : Dfa σ α) (id : Nat) : Except (Fault σ) (List (RangeSet σ × Nat)) :=
  State.transitions <$> d.state? id

/-- The state that `x` leads to, if any does. -/
def next? (d : Dfa σ α) (id : Nat) (x : σ) : Except (Fault σ) (Option Nat) := do
  match (← d.transitions? id).filter (·.1.contains x) with
  | [] => return none
  | [t] => return some t.2
  | _ => throw (.ambiguous id x)

/-- The states that some symbol of `set` leads to. -/
def nextStates? (d : Dfa σ α) (id : Nat) (set : RangeSet σ) : Except (Fault σ) (List Nat) := do
  return ((← d.transitions? id).filter (!·.1.isDisjoint set)).map Prod.snd

/-! ## Matching -/

/-- Goes on from `id` after `length` symbols, with the longest match so far. -/
def matchFrom (d : Dfa σ α) (id length : Nat) (longest : Option (Nat × α)) :
    List σ → Except (Fault σ) (Option (Nat × α))
  | [] => .ok longest
  | x :: rest => do
    match ← d.next? id x with
    | none => return longest
    | some target =>
      if d.dead = some target then return longest
      match ← d.code? target with
      | some code => d.matchFrom target (length + 1) (some (length + 1, code)) rest
      | none => d.matchFrom target (length + 1) longest rest

/-- The length of the longest beginning of the input that leads to an accepting state, not counting
the empty one, and the code of that state. -/
def longestMatch (d : Dfa σ α) (input : List σ) : Except (Fault σ) (Option (Nat × α)) :=
  d.matchFrom d.start 0 none input

/-! ## Codes -/

/-- The same automaton with other codes. -/
def mapCodes (f : α → β) (d : Dfa σ α) : Dfa σ β where
  start := d.start
  dead := d.dead
  states := d.states.map fun s => ⟨s.transitions, s.code.map f⟩

end Dfa

end Munch
