-- SUMMARY: Determinized and minimized automata start in state 0 and lead to no target twice.
import Munch.Proofs.Dfa.Connected

/-! # Tidy automata

The transitions that leave a state come from moves that are gathered by where
they lead, so no set is empty and no target occurs twice. The start is the first
state that is found, and its group is the first one. -/

namespace Munch

variable {σ α β : Type} [Symbol σ]

/-- The automaton starts in state 0, and nonempty sets lead from each state to different targets. -/
structure Dfa.Tidy (d : Dfa σ α) : Prop where
  start_eq : d.start = 0
  nonempty : ∀ {i}, ∀ t ∈ d.transitions i, ∃ x, x ∈ t.1
  targets_nodup : ∀ i, ((d.transitions i).map Prod.snd).Nodup

/-- Different numbers below a bound are not more than it. -/
theorem length_le_of_forall_lt {l : List Nat} {bound : Nat} (hnodup : l.Nodup)
    (h : ∀ n ∈ l, n < bound) : l.length ≤ bound := by
  have hsub : l ⊆ List.range bound := fun n hn => List.mem_range.2 (h n hn)
  have hle := (hnodup.subperm hsub).length_le
  rwa [List.length_range] at hle

theorem Dfa.Tidy.length_transitions_le {d : Dfa σ α} (htidy : d.Tidy) (h : d.WellFormed)
    (i : Nat) : (d.transitions i).length ≤ d.size := by
  have hlt : ∀ target ∈ (d.transitions i).map Prod.snd, target < d.size :=
    List.forall_mem_map.2 fun t ht => h.transitions_lt ht
  have hle := length_le_of_forall_lt (htidy.targets_nodup i) hlt
  rwa [List.length_map] at hle

/-! ## Determinized automata -/

namespace Nfa.Search

variable [Ord α] {n : Nfa σ α} {q : Search σ α} {i : Nat}

omit [Ord α] in
theorem expected_nodup (n : Nfa σ α) (s : StateSet) : ((expected n s).map Prod.snd).Nodup := by
  rw [expected]
  split
  · exact List.nodup_nil
  · have hsome := (moves_nodup n s).map (Option.some_injective StateSet)
    simpa [Function.comp_def] using hsome

/-- A state without a set has no transitions. -/
theorem Invariant.transitions_eq_nil (hq : Invariant n [] q) (hi : q.sets[i]? = none) :
    q.dfa.transitions i = [] := by
  have hsize : q.builder.states.size ≤ i := by
    have hle := List.getElem?_eq_none_iff.1 hi
    have hsize : q.builder.states.size = q.sets.length := hq.size_eq
    omega
  show ((q.builder.states[i]?).map _).getD [] = []
  rw [Array.getElem?_eq_none hsize]
  rfl

theorem Invariant.tidy (hq : Invariant n [] q) (hqueue : q.queue = []) : q.dfa.Tidy where
  start_eq := rfl
  nonempty {i} t ht := by
    cases hs : q.sets[i]? with
    | none =>
      rw [hq.transitions_eq_nil hs] at ht
      cases ht
    | some s =>
      have hplaced : (t.1, q.sets[t.2]?) ∈ q.placed i := List.mem_map.2 ⟨t, ht, rfl⟩
      obtain ⟨-, destination, -, hmove⟩ :=
        mem_expected ((hq.placed_perm hqueue hs).subset hplaced)
      exact moves_nonempty hmove
  targets_nodup i := by
    cases hs : q.sets[i]? with
    | none =>
      rw [hq.transitions_eq_nil hs]
      exact List.nodup_nil
    | some s =>
      have hnodup : ((q.placed i).map Prod.snd).Nodup :=
        ((hq.placed_perm hqueue hs).map Prod.snd).nodup_iff.2 (expected_nodup n s)
      have hsets : (q.placed i).map Prod.snd =
          ((q.dfa.transitions i).map Prod.snd).map (q.sets[·]?) := by
        rw [placed, List.map_map, List.map_map]
        rfl
      rw [hsets] at hnodup
      exact hnodup.of_map

end Nfa.Search

/-! ## Other codes and merged states -/

namespace Dfa

variable {d d' : Dfa σ α} {r : Nat → Nat → Prop}

theorem Tidy.mapCodes (h : d.Tidy) (f : α → β) : (d.mapCodes f).Tidy where
  start_eq := h.start_eq
  nonempty {i} t ht := by
    rw [transitions_mapCodes] at ht
    exact h.nonempty t ht
  targets_nodup i := by
    rw [transitions_mapCodes]
    exact h.targets_nodup i

theorem groupTransitions_nonempty {g : Group} {t : RangeSet σ × Nat}
    (ht : t ∈ d.groupTransitions r g) : ∃ x, x ∈ t.1 := by
  have hne := (List.mem_filter.1 ht).2
  exact RangeSet.isEmpty_eq_false_iff.1 (by simpa using hne)

theorem groupTransitions_nodup (d : Dfa σ α) (r : Nat → Nat → Prop) (g : Group) :
    ((d.groupTransitions r g).map Prod.snd).Nodup :=
  (RangeSet.nodup_gatherAll _).sublist (List.filter_sublist.map Prod.snd)

/-- Nothing leaves a merged state but the transitions of its group. -/
theorem transitions_quotient (d : Dfa σ α) (r : Nat → Nat → Prop) (i : Nat) :
    (d.quotient r).transitions i = [] ∨
      ∃ g, (d.quotient r).transitions i = d.groupTransitions r g := by
  cases hg : (Partition.classes r d.size)[i]? with
  | none =>
    have hnone : (d.quotient r).states[i]? = none := by simp [quotient, hg]
    exact .inl (by rw [transitions, hnone]; rfl)
  | some g =>
    rw [transitions_of_state (state_quotient hg), groupState]
    by_cases hdead : d.dead.map (Partition.index r d.size) = some i
    · exact .inl (if_pos hdead)
    · exact .inr ⟨g, if_neg hdead⟩

theorem quotient_nonempty {i : Nat} {t : RangeSet σ × Nat} (ht : t ∈ (d.quotient r).transitions i) :
    ∃ x, x ∈ t.1 := by
  rcases transitions_quotient d r i with hnil | ⟨g, hg⟩
  · rw [hnil] at ht
    cases ht
  · exact groupTransitions_nonempty (hg ▸ ht)

theorem quotient_nodup (d : Dfa σ α) (r : Nat → Nat → Prop) (i : Nat) :
    (((d.quotient r).transitions i).map Prod.snd).Nodup := by
  rcases transitions_quotient d r i with hnil | ⟨g, hg⟩
  · rw [hnil]
    exact List.nodup_nil
  · rw [hg]
    exact groupTransitions_nodup d r g

theorem Tidy.quotient (h : d.Tidy) (hwf : d.WellFormed) : (d.quotient r).Tidy where
  start_eq := by
    have hpos : 0 < d.size := Nat.zero_lt_of_lt hwf.1
    show Partition.index r d.size d.start = 0
    rw [h.start_eq, Partition.index_zero hpos]
  nonempty _ := quotient_nonempty
  targets_nodup := quotient_nodup d r

theorem Tidy.minimize [DecidableEq α] (h : d.Tidy) (hwf : d.WellFormed)
    (hmin : d.minimize? = .ok d') : d'.Tidy := by
  by_cases halone : ∀ a < d.size, ∀ b < d.size, d.Alike a b → a = b
  · rw [hwf.minimize?_of_alone halone] at hmin
    cases hmin
    exact h
  · rw [hwf.minimize?_of_alike halone] at hmin
    cases hmin
    exact h.quotient hwf

end Dfa

end Munch
