-- SUMMARY: The silent closure by a search with a stack, and a memo of the closures that were asked for.
import Munch.Nfa.Moves
import Std.Data.HashMap

/-!
# Memoized closures

The same closures are asked for again and again. Each is searched for once: the
search follows the silent edges of one state after the other, and states that it
sees for the first time wait on a stack. The memo notes the result under the set
that was asked for, which need not be closed, and gives it if that set is asked
for again. Other sets with the same closure are searched for on their own.
-/

namespace Munch.Nfa

variable {σ α : Type} [Symbol σ]

/-! ## Search -/

/-- The states that were seen, and those of them whose edges wait to be followed. -/
structure Walk where
  seen : StateSet
  stack : List Nat

namespace Walk

/-- The target of an edge, which has to exist, is put on the stack if it was not seen before. -/
def see? (n : Nfa σ α) (w : Walk) (target : Nat) : Except (Fault σ) Walk :=
  if target < n.size then
    if target ∈ w.seen then .ok w else .ok ⟨w.seen ∪ {target}, target :: w.stack⟩
  else .error (.noSuchState target)

def follow? (n : Nfa σ α) (w : Walk) (id : Nat) : Except (Fault σ) Walk :=
  (n.silentTargets id).foldlM (see? n) w

/-- How many states may still have to be followed. -/
def left (n : Nfa σ α) (w : Walk) : Nat := (StateSet.missing n.size w.seen).length + w.stack.length

theorem left_see {n : Nfa σ α} {w w' : Walk} {target : Nat} (h : w.see? n target = .ok w') :
    w'.left n ≤ w.left n := by
  unfold see? at h
  split at h
  case isTrue hlt =>
    split at h
    case isTrue => cases h; exact Nat.le_refl _
    case isFalse hseen =>
      cases h
      have hmissing := StateSet.length_missing_lt hlt (StateSet.mem_singleton.2 rfl) hseen
      simp only [left, List.length_cons]
      omega
  case isFalse => cases h

theorem left_foldlM_see {n : Nfa σ α} {targets : List Nat} {w w' : Walk}
    (h : targets.foldlM (see? n) w = .ok w') : w'.left n ≤ w.left n := by
  induction targets generalizing w with
  | nil => cases h; exact Nat.le_refl _
  | cons target targets ih =>
    rw [List.foldlM_cons] at h
    cases hsee : w.see? n target with
    | error f => rw [hsee] at h; cases h
    | ok w₁ => rw [hsee] at h; exact Nat.le_trans (ih h) (left_see hsee)

/-- Follows the edges of the states on the stack, until it is empty. -/
def run? (n : Nfa σ α) : Walk → Except (Fault σ) StateSet
  | ⟨seen, []⟩ => .ok seen
  | ⟨seen, id :: rest⟩ =>
    match _ : follow? n ⟨seen, rest⟩ id with
    | .error f => .error f
    | .ok w => run? n w
termination_by w => w.left n
decreasing_by
  case _ hfollow => exact Nat.lt_succ_of_le (left_foldlM_see hfollow)

end Walk

/-- The closure of a set of states that exist, searched for from its greatest state on. -/
def walk? (n : Nfa σ α) (s : StateSet) : Except (Fault σ) StateSet := do
  let s ← n.present? s
  Walk.run? n ⟨s, s.ids.reverse⟩

/-! ## Memo -/

/-- Closures by the sets that were asked for. -/
abbrev Memo := Std.HashMap StateSet StateSet

/-- What may read the memo and add to it. What was added stays if there is a fault later. -/
abbrev Memoized (σ : Type) := ExceptT (Fault σ) (StateM Memo)

/-- The closure that the memo has for a set. If it has none, it notes the one that is found, and an
entry that was made in between stays. -/
def recallClosure? (n : Nfa σ α) (s : StateSet) : Memoized σ StateSet := do
  match (← get)[s]? with
  | some t => return t
  | none =>
    let t ← n.walk? s
    modifyGet fun memo =>
      let (noted, memo) := memo.getThenInsertIfNew? s t
      (noted.getD t, memo)

/-- The moves from a set, piece by piece, with closures from the memo. -/
def recallMoves? (n : Nfa σ α) (s : StateSet) : Memoized σ (List (RangeSet σ × StateSet)) := do
  let s ← n.present? s
  let edges := n.outgoing s
  (Splitter.atoms (edges.map Prod.fst)).foldlM (fun moves piece => do
    let targets := StateSet.ofList ((edges.filter fun e => !e.1.isDisjoint piece).map Prod.snd)
    return RangeSet.gather moves piece (← n.recallClosure? targets)) []

end Munch.Nfa
