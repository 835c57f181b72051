-- SUMMARY: The deterministic automaton whose states are sets of states of another one.
import Munch.Dfa.Basic
import Munch.Nfa.Moves
import Std.Data.HashMap

/-!
# Subset construction

The states of the new automaton are the sets of states that the old one can be
in, numbered in the order in which they are explored, the closure of the start
first. The code of a set is the greatest code in it. The empty set, if it is
found, is the dead state.

Sets wait in a queue to be explored, and one that is found twice waits twice. A
transition to a set that has no number yet is parked, and it is added as soon
as the set gets its number.
-/

namespace Munch

/-- A deterministic automaton with the set that each of its states stands for. -/
structure Subsets (σ α : Type) [Symbol σ] where
  dfa : Dfa σ α
  sets : List StateSet
  numbers : Std.HashMap StateSet Nat

namespace Subsets

variable {σ α : Type} [Symbol σ]

/-- The set that a state stands for. -/
def set? (r : Subsets σ α) (id : Nat) : Option StateSet := r.sets[id]?

/-- The state that stands for a set. -/
def state? (r : Subsets σ α) (s : StateSet) : Option Nat := r.numbers[s]?

end Subsets

namespace Nfa

/-- A transition whose destination may have no number yet. -/
structure Parked (σ : Type) [Symbol σ] where
  source : Nat
  set : RangeSet σ
  destination : StateSet

/-- What the construction has found so far. -/
structure Search (σ α : Type) [Symbol σ] where
  builder : Dfa.Builder σ α
  sets : List StateSet
  numbers : Std.HashMap StateSet Nat
  /-- Transitions that wait for their destination to get its number. -/
  pending : List (Parked σ)
  dead : Option Nat
  queue : List StateSet

namespace Search

variable {σ α : Type} [Symbol σ]

/-! ## Exploring a set -/

/-- Nothing is explored yet, and one set waits. -/
def init (start : StateSet) : Search σ α := ⟨.empty, [], ∅, [], none, [start]⟩

def number? (q : Search σ α) (s : StateSet) : Option Nat := q.numbers[s]?

/-- The parked transitions to a set. -/
def waiting (q : Search σ α) (s : StateSet) : List (Parked σ) :=
  q.pending.filter (·.destination = s)

/-- Gives a set its number, for which nothing waits any longer. -/
def enter (q : Search σ α) (s : StateSet) (code : Option α) : Search σ α :=
  { q with
    builder := q.builder.newState code
    sets := q.sets ++ [s]
    numbers := q.numbers.insert s q.builder.size
    pending := q.pending.filter (·.destination ≠ s)
    dead := if s.isEmpty then some q.builder.size else q.dead }

/-- Adds a transition, or parks it and lets its destination wait. -/
def link? (q : Search σ α) (e : Parked σ) : Except (Fault σ) (Search σ α) :=
  match q.number? e.destination with
  | some target => do
    return { q with builder := ← q.builder.addTransition? e.source e.set target }
  | none => .ok { q with pending := q.pending ++ [e], queue := q.queue ++ [e.destination] }

/-- Gives a set its number, and adds the transitions that waited for it and those that leave it.
Nothing is asked of the empty set, from which nothing can be reached. -/
def explore? [Ord α] (n : Nfa σ α) (q : Search σ α) (s : StateSet) :
    Except (Fault σ) (Search σ α) := do
  let id := q.builder.size
  let code ← n.codeOf? s
  let linked ← (q.waiting s).foldlM link? (q.enter s code)
  if s.isEmpty then return linked
  ((← n.moves? s).map fun move => ⟨id, move.1, move.2⟩).foldlM link? linked

/-! ## Exploring all sets

There are no more sets to explore than subsets of the states, and every set is
explored once.
-/

/-- The ascending lists of numbers below `n`. -/
def idLists : Nat → List (List Nat)
  | 0 => [[]]
  | n + 1 => idLists n ++ (idLists n).map (· ++ [n])

theorem mem_idLists {n : Nat} {ids : List Nat} (hasc : ids.Pairwise (· < ·))
    (hlt : ∀ i ∈ ids, i < n) : ids ∈ idLists n := by
  induction n generalizing ids with
  | zero =>
    have : ids = [] := List.eq_nil_iff_forall_not_mem.2 fun i hi => Nat.not_lt_zero i (hlt i hi)
    simp [this, idLists]
  | succ n ih =>
    rcases List.eq_nil_or_concat ids with rfl | ⟨init, last, rfl⟩
    · exact List.mem_append_left _ (ih .nil (by simp))
    · rw [List.concat_eq_append] at *
      obtain ⟨hinit, -, hlast⟩ := List.pairwise_append.1 hasc
      have hlt' : ∀ i ∈ init, i < last := fun i hi => hlast i hi last (List.mem_singleton_self _)
      have : last < n + 1 := hlt last (by simp)
      by_cases hn : last = n
      · subst hn
        exact List.mem_append_right _ (List.mem_map.2 ⟨init, ih hinit hlt', rfl⟩)
      · refine List.mem_append_left _ (ih hasc fun i hi => ?_)
        rcases List.mem_append.1 hi with hi | hi
        · have := hlt' i hi; omega
        · have := List.mem_singleton.1 hi; omega

/-- The subsets of the states below `size` that have no number. -/
def unexplored (q : Search σ α) (size : Nat) : List (List Nat) :=
  (idLists size).filter fun ids => !q.numbers.contains (.ofList ids)

theorem numbers_link {q q' : Search σ α} {e : Parked σ} (h : q.link? e = .ok q') :
    q'.numbers = q.numbers := by
  unfold link? at h
  split at h
  · cases hb : q.builder.addTransition? e.source e.set _ with
    | error f => rw [hb] at h; cases h
    | ok b => rw [hb] at h; cases h; rfl
  · cases h; rfl

theorem numbers_foldlM_link {hand : List (Parked σ)} {q q' : Search σ α}
    (h : hand.foldlM link? q = .ok q') : q'.numbers = q.numbers := by
  induction hand generalizing q with
  | nil => cases h; rfl
  | cons e hand ih =>
    rw [List.foldlM_cons] at h
    cases he : q.link? e with
    | error f => rw [he] at h; cases h
    | ok q₁ => rw [he] at h; exact (ih h).trans (numbers_link he)

theorem lt_size_of_codeOf [Ord α] {n : Nfa σ α} {s : StateSet} {code : Option α}
    (h : n.codeOf? s = .ok code) : ∀ i ∈ s.ids, i < n.size := by
  intro i hi
  unfold codeOf? present? at h
  cases hf : s.ids.find? (n.size ≤ ·) with
  | some id => rw [hf] at h; cases h
  | none => simpa using List.find?_eq_none.1 hf i hi

theorem numbers_explore [Ord α] {n : Nfa σ α} {q q' : Search σ α} {s : StateSet}
    (h : q.explore? n s = .ok q') :
    q'.numbers = q.numbers.insert s q.builder.size ∧ ∀ i ∈ s.ids, i < n.size := by
  unfold explore? at h
  cases hc : n.codeOf? s with
  | error f => rw [hc] at h; cases h
  | ok code =>
    refine ⟨?_, lt_size_of_codeOf hc⟩
    rw [hc] at h
    cases hl : (q.waiting s).foldlM link? (q.enter s code) with
    | error f => simp only [bind, Except.bind, hl] at h; cases h
    | ok linked =>
      have hlinked : linked.numbers = q.numbers.insert s q.builder.size := numbers_foldlM_link hl
      simp only [bind, Except.bind, hl] at h
      split at h
      · cases h; exact hlinked
      · cases hm : n.moves? s with
        | error f => rw [hm] at h; cases h
        | ok moves => rw [hm] at h; exact (numbers_foldlM_link h).trans hlinked

theorem length_unexplored_lt {q q' : Search σ α} {size : Nat} {s : StateSet} {id : Nat}
    (hs : ¬ (q.number? s).isSome) (hlt : ∀ i ∈ s.ids, i < size)
    (h : q'.numbers = q.numbers.insert s id) :
    (q'.unexplored size).length < (q.unexplored size).length := by
  have hfresh : ¬ q.numbers.contains (.ofList s.ids) := by
    rw [StateSet.ofList_ids, Std.HashMap.contains_eq_isSome_getElem?]
    exact hs
  have hmem : s.ids ∈ q.unexplored size :=
    List.mem_filter.2 ⟨mem_idLists s.ascending hlt, by simpa using hfresh⟩
  have hfilter : q'.unexplored size = (q.unexplored size).filter (s ≠ .ofList ·) := by
    simp only [unexplored, h, List.filter_filter, Std.HashMap.contains_insert]
    congr 1
    funext ids
    by_cases hs : s = .ofList ids <;> simp [hs]
  rw [hfilter]
  exact List.length_filter_lt_length_iff_exists.2 ⟨s.ids, hmem, by simp [StateSet.ofList_ids]⟩

/-- Explores what is in the queue, until nothing is. -/
def run? [Ord α] (n : Nfa σ α) (q : Search σ α) : Except (Fault σ) (Search σ α) :=
  match _ : q.queue with
  | [] => .ok q
  | s :: rest =>
    if _ : (q.number? s).isSome then run? n { q with queue := rest }
    else
      match _ : explore? n { q with queue := rest } s with
      | .error f => .error f
      | .ok q' => run? n q'
termination_by ((q.unexplored n.size).length, q.queue.length)
decreasing_by
  case _ hq _ =>
    refine Prod.Lex.right _ ?_
    rw [hq]
    exact Nat.lt_succ_self _
  case _ hs hr =>
    obtain ⟨hnumbers, hlt⟩ := numbers_explore hr
    exact Prod.Lex.left _ _ (length_unexplored_lt hs hlt hnumbers)

def result (q : Search σ α) : Subsets σ α := ⟨q.builder.build 0 q.dead, q.sets, q.numbers⟩

end Search

variable {σ α : Type} [Symbol σ]

/-- All that the construction finds. -/
def search? [Ord α] (n : Nfa σ α) : Except (Fault σ) (Search σ α) := do
  (Search.init (← n.closure? {n.start})).run? n

/-- The subset construction. -/
def determinize [Ord α] (n : Nfa σ α) : Except (Fault σ) (Subsets σ α) :=
  Search.result <$> n.search?

end Nfa

end Munch
