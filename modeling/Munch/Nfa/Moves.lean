-- SUMMARY: Sets of states of an automaton: silent closure, moves by symbols, and accept codes.
import Munch.Nfa.Basic
import Munch.RangeSet.Gather
import Munch.Splitter
import Munch.StateSet

/-!
# Moves between sets of states

The automaton may be in any state of a set. It closes the set under silent
edges, and moves with each symbol to the closed set of the targets of all
edges that read the symbol. The moves are given by pieces of the domain: the
sets are disjoint, together they are the whole domain, and each destination
stands once. Symbols that no edge reads lead to the empty set.

The functions here take a missing state for one without edges and code. Those
with a question mark are faults on sets that hold such a state or lead to one.
-/

namespace Munch.Nfa

variable {σ α : Type} [Symbol σ]

def edges (n : Nfa σ α) (id : Nat) : List (Edge σ) := (n.states[id]?.map State.edges).getD []

def code? (n : Nfa σ α) (id : Nat) : Option α := n.states[id]?.bind State.code

/-! ## Reachability -/

def targets (n : Nfa σ α) (id : Nat) : List Nat := (n.edges id).map Edge.target

/-- The targets of silent edges. -/
def silentTargets (n : Nfa σ α) (id : Nat) : List Nat :=
  ((n.edges id).filter (·.label.isNone)).map Edge.target

/-- The states that the states of a set lead to by edges of any kind, with the set itself. -/
def reachableFrom (n : Nfa σ α) (s : StateSet) : StateSet := .reach n.targets n.size s s

def reachable (n : Nfa σ α) : StateSet := n.reachableFrom {n.start}

/-- The states that the states of a set lead to by silent edges, with the set itself. -/
def closure (n : Nfa σ α) (s : StateSet) : StateSet := .reach n.silentTargets n.size s s

/-! ## Moves -/

/-- The edges that leave a set and read a symbol, state by state. -/
def outgoing (n : Nfa σ α) (s : StateSet) : List (RangeSet σ × Nat) :=
  s.ids.flatMap fun id => (n.edges id).filterMap fun e => e.label.map (·, e.target)

/-- Where the edges that read the symbols of a piece lead. -/
def destination (n : Nfa σ α) (edges : List (RangeSet σ × Nat)) (piece : RangeSet σ) : StateSet :=
  n.closure (.ofList ((edges.filter fun e => !e.1.isDisjoint piece).map Prod.snd))

/-- The moves from a set, in the order of the pieces that its edges cut the domain into. -/
def moves (n : Nfa σ α) (s : StateSet) : List (RangeSet σ × StateSet) :=
  let edges := n.outgoing s
  RangeSet.gatherAll <|
    (Splitter.atoms (edges.map Prod.fst)).map fun piece => (piece, n.destination edges piece)

/-- The greatest of some codes, the last one if several are equal. -/
def greatest [Ord α] : List α → Option α
  | [] => none
  | c :: cs => some (cs.foldl (fun best c => if (compare c best).isGE then c else best) c)

/-- The greatest code in a set. -/
def codeOf [Ord α] (n : Nfa σ α) (s : StateSet) : Option α := greatest (s.ids.filterMap n.code?)

/-! ## Checked operations -/

/-- The set itself, provided that all its states exist. -/
def present? (n : Nfa σ α) (s : StateSet) : Except (Fault σ) StateSet :=
  match s.ids.find? (n.size ≤ ·) with
  | some id => .error (.noSuchState id)
  | none => .ok s

def reachable? (n : Nfa σ α) : Except (Fault σ) StateSet := n.present? n.reachable

def closure? (n : Nfa σ α) (s : StateSet) : Except (Fault σ) StateSet := n.present? (n.closure s)

def moves? (n : Nfa σ α) (s : StateSet) : Except (Fault σ) (List (RangeSet σ × StateSet)) := do
  let s ← n.present? s
  (n.moves s).mapM fun move => do return (move.1, ← n.present? move.2)

def codeOf? [Ord α] (n : Nfa σ α) (s : StateSet) : Except (Fault σ) (Option α) :=
  n.codeOf <$> n.present? s

end Munch.Nfa
