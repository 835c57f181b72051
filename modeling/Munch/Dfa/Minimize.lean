-- SUMMARY: The smallest automaton with the same matches, by partition refinement.
import Munch.Dfa.Basic
import Munch.RangeSet.Gather
import Munch.Splitter

/-!
# Minimization

States that no input tells apart are merged. The states are first grouped by
their codes; then groups are split, round by round, as long as some symbol leads
from two members of a group into different groups. A missing transition counts
as one to the dead state.

Groups are listed by their smallest member and members in ascending order, so
two partitions are the same if and only if they are equal as data.
-/

namespace Munch

namespace Dfa

/-! ## Partitions -/

/-- A group of states, which always has a first member. -/
structure Group where
  first : Nat
  others : List Nat
deriving DecidableEq

def Group.members (g : Group) : List Nat := g.first :: g.others

abbrev Partition := List Group

namespace Partition

variable {ε : Type}

/-- Puts a state into the first group whose first member is not apart from it, or into a new one. -/
def place (apart : Nat → Nat → Except ε Bool) (id : Nat) : Partition → Except ε Partition
  | [] => .ok [⟨id, []⟩]
  | g :: rest => do
    if ← apart g.first id then
      return g :: (← place apart id rest)
    return ⟨g.first, g.others ++ [id]⟩ :: rest

/-- The groups of the states below `count`. -/
def ofTest (count : Nat) (apart : Nat → Nat → Except ε Bool) : Except ε Partition :=
  (List.range count).foldlM (fun p id => place apart id p) []

/-- The place of the group that each of the states below `count` is in. -/
def table (p : Partition) (count : Nat) : Array Nat :=
  (List.range count).toArray.map fun id => p.findIdx (·.members.contains id)

end Partition

variable {σ α : Type} [Symbol σ]

/-! ## Refinement -/

def groupOf? (groups : Array Nat) (id : Nat) : Except (Fault σ) Nat :=
  match groups[id]? with
  | some g => .ok g
  | none => .error (.noSuchState id)

/-- The group that the symbols of a piece lead to. The piece must not be cut by a transition. -/
def successorGroup? (d : Dfa σ α) (groups : Array Nat) (id : Nat) (piece : RangeSet σ) :
    Except (Fault σ) (Option Nat) := do
  match ← d.nextStates? id piece with
  | _ :: _ :: _ => throw (.ambiguousPiece id)
  | targets => (targets.head? <|> d.dead).mapM (groupOf? groups)

/-- Whether some symbol leads from the two states into different groups. -/
def apartBySuccessors? (d : Dfa σ α) (groups : Array Nat) (a b : Nat) :
    Except (Fault σ) Bool := do
  let cuts := (← d.transitions? a) ++ (← d.transitions? b)
  (Splitter.atoms (cuts.map Prod.fst)).anyM fun piece => do
    return (← d.successorGroup? groups a piece) != (← d.successorGroup? groups b piece)

/-- One round: states stay together if they were and their successors are. -/
def refine? (d : Dfa σ α) (p : Partition) : Except (Fault σ) Partition :=
  let groups := p.table d.size
  Partition.ofTest d.size fun a b =>
    if groups[a]? ≠ groups[b]? then .ok true else d.apartBySuccessors? groups a b

/-- Rounds until one changes nothing, at most `rounds` of them. -/
def refineAll? (d : Dfa σ α) : Nat → Partition → Except (Fault σ) Partition
  | 0, p => .ok p
  | rounds + 1, p => do
    let refined ← d.refine? p
    if refined = p then return p
    d.refineAll? rounds refined

variable [DecidableEq α]

/-- The states by their codes. -/
def codeClasses? (d : Dfa σ α) : Except (Fault σ) Partition :=
  Partition.ofTest d.size fun a b => do return (← d.code? a) != (← d.code? b)

/-- The groups of states that no input tells apart. Every round but the last makes more groups, so
there are at most as many rounds as states. -/
def classes? (d : Dfa σ α) : Except (Fault σ) Partition := do
  d.refineAll? d.size (← d.codeClasses?)

/-! ## Merging -/

omit [DecidableEq α] in
/-- The state that stands for the group number `id`, made from the group's first member. -/
def mergedState? (d : Dfa σ α) (groups : Array Nat) (dead : Option Nat) (id : Nat) (g : Group) :
    Except (Fault σ) (State σ α) := do
  let code ← d.code? g.first
  if dead = some id then return ⟨[], code⟩
  let entries ← (← d.transitions? g.first).foldlM
    (fun entries t => return RangeSet.gather entries t.1 (← groupOf? groups t.2)) []
  entries.foldlM (fun s t => s.addTransition? id t.1 t.2) ⟨[], code⟩

omit [DecidableEq α] in
/-- The automaton with one state for every group. -/
def merge? (d : Dfa σ α) (p : Partition) : Except (Fault σ) (Dfa σ α) := do
  let groups := p.table d.size
  let dead ← d.dead.mapM (groupOf? groups)
  let states ← p.zipIdx.mapM fun (g, id) => d.mergedState? groups dead id g
  return ⟨← groupOf? groups d.start, dead, states.toArray⟩

/-- The smallest automaton with the same matches; the automaton itself if it is that already. -/
def minimize? (d : Dfa σ α) : Except (Fault σ) (Dfa σ α) := do
  let p ← d.classes?
  if p.length = d.size then return d
  d.merge? p

end Dfa

end Munch
