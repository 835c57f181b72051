-- SUMMARY: Nondeterministic automata and the steps that build them.
import Munch.Fault
import Munch.RangeSet.Basic

/-!
# Nondeterministic automata

States are numbered from zero in the order in which they were made. An edge is
labelled with a set of symbols, or it is silent and reads nothing. The steps of
a builder check that the state an edge leaves exists; the target is only noted.
-/

namespace Munch

namespace Nfa

structure Edge (σ : Type) [Symbol σ] where
  /-- The symbols the edge reads; none if it is silent. -/
  label : Option (RangeSet σ)
  target : Nat

structure State (σ α : Type) [Symbol σ] where
  edges : List (Edge σ)
  code : Option α

end Nfa

structure Nfa (σ α : Type) [Symbol σ] where
  start : Nat
  states : Array (Nfa.State σ α)

namespace Nfa

variable {σ α : Type} [Symbol σ]

instance : Inhabited (State σ α) := ⟨⟨[], none⟩⟩

instance : Inhabited (Nfa σ α) := ⟨⟨0, #[]⟩⟩

def size (n : Nfa σ α) : Nat := n.states.size

/-! ## Building -/

structure Builder (σ α : Type) [Symbol σ] where
  states : Array (State σ α)

namespace Builder

def empty : Builder σ α := ⟨#[]⟩

instance : Inhabited (Builder σ α) := ⟨empty⟩

/-- The number of states, which is also the number the next state will have. -/
def size (b : Builder σ α) : Nat := b.states.size

def newState (b : Builder σ α) : Builder σ α := ⟨b.states.push ⟨[], none⟩⟩

/-- The builder with the state `id` changed, if there is one. -/
def modify (b : Builder σ α) (id : Nat) (f : State σ α → State σ α) : Builder σ α :=
  ⟨b.states.modify id f⟩

def addEdge (b : Builder σ α) (source : Nat) (edge : Edge σ) : Builder σ α :=
  b.modify source fun s => { s with edges := s.edges ++ [edge] }

def addSilent (b : Builder σ α) (source target : Nat) : Builder σ α :=
  b.addEdge source ⟨none, target⟩

/-- An edge that reads no symbol at all would never be taken and is left out. -/
def addTransition (b : Builder σ α) (source : Nat) (set : RangeSet σ) (target : Nat) :
    Builder σ α :=
  if set.isEmpty then b else b.addEdge source ⟨some set, target⟩

def setCode (b : Builder σ α) (id : Nat) (code : α) : Builder σ α :=
  b.modify id fun s => { s with code := some code }

/-! ### Checked steps -/

/-- The result of a step, provided that the state `id` exists. -/
def guarded (b : Builder σ α) (id : Nat) (result : Builder σ α) :
    Except (Fault σ) (Builder σ α) :=
  if id < b.size then .ok result else .error (.noSuchState id)

def addSilent? (b : Builder σ α) (source target : Nat) : Except (Fault σ) (Builder σ α) :=
  b.guarded source (b.addSilent source target)

def addTransition? (b : Builder σ α) (source : Nat) (set : RangeSet σ) (target : Nat) :
    Except (Fault σ) (Builder σ α) :=
  if set.isEmpty then .ok b else b.guarded source (b.addTransition source set target)

def setCode? (b : Builder σ α) (id : Nat) (code : α) : Except (Fault σ) (Builder σ α) :=
  b.guarded id (b.setCode id code)

def build (b : Builder σ α) (start : Nat) : Nfa σ α := ⟨start, b.states⟩

end Builder

end Nfa

end Munch
