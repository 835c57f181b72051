-- SUMMARY: Compilation has no faults, and in its automata every symbol leads on from every live state.
import Munch.Proofs.Compile
import Munch.Proofs.Dfa.Tidy

/-! # The shape of compiled automata

Rules are compiled without a fault, whatever the settings, unless a pattern
among them is wrong. The sets that leave a state other than the dead one are a
partition of the domain, with a target of its own for each. -/

namespace Munch

variable {α : Type} [Ord α]

/-! ## Tidiness through the steps of compilation -/

theorem determinizeRules_tidy {β : Type} [Ord β] {entries : List (Fragment Char × β)}
    {d : Dfa Char β} (h : determinizeRules entries = .ok d) : d.Tidy := by
  obtain ⟨q, hsearch, hq, hqueue⟩ := (Nfa.ofRules_wellFormed entries).search?_eq
  rw [determinizeRules, Nfa.determinize, hsearch] at h
  cases h
  exact hq.tidy hqueue

theorem determinizeBy_tidy {policy : TieBreak} {entries : List (Fragment Char × α)}
    {d : Dfa Char α} (h : determinizeBy policy entries = .ok d) : d.Tidy := by
  cases policy with
  | highestCode => exact determinizeRules_tidy h
  | firstDeclared =>
    obtain ⟨d', hd', rfl⟩ := Checked.map_eq_ok h
    exact (determinizeRules_tidy hd').mapCodes Label.code

variable [Std.TransOrd α] [DecidableEq α]

theorem compile_tidy {config : Config} {rules : List (Rule α)} {d : Dfa Char α}
    (h : compile config rules = .ok d) : d.Tidy := by
  obtain ⟨entries, hentries⟩ := exists_entries_of_compile h
  obtain ⟨d', hd', hconnected, -⟩ :=
    determinizeBy_eq config.tieBreak (labelledFragments_eq hentries)
  have htidy := determinizeBy_tidy hd'
  rw [compile_of_determinizeBy hentries hd'] at h
  by_cases hmin : config.minimize = true
  · obtain ⟨m, hm, -⟩ := hconnected.minimize?_eq
    rw [if_pos hmin, hm] at h
    cases h
    exact htidy.minimize hconnected.wellFormed hm
  · rw [if_neg hmin] at h
    cases h
    exact htidy

/-! ## Transitions -/

namespace Dfa

variable {σ : Type} [Symbol σ] {d : Dfa σ α}

omit [Ord α] [Std.TransOrd α] [DecidableEq α] in
/-- The sets that leave a state other than the dead one are a partition of the domain. -/
theorem Connected.isPartition (h : d.Connected) (htidy : d.Tidy) {i : Nat} (hi : i < d.size)
    (hdead : d.dead ≠ some i) : RangeSet.IsPartition ((d.transitions i).map Prod.fst) where
  nonempty {p} hp := by
    obtain ⟨t, ht, rfl⟩ := List.mem_map.1 hp
    exact htidy.nonempty t ht
  disjoint := List.pairwise_map.2 (h.wellFormed.transitions_disjoint i)
  cover x := by
    obtain ⟨j, hj⟩ := h.leads_on hi hdead x
    obtain ⟨set, hmem, hx⟩ := h.wellFormed.next_eq_some_iff.1 hj
    exact ⟨set, List.mem_map.2 ⟨_, hmem, rfl⟩, hx⟩

end Dfa

/-! ## Compiled automata -/

/-- Only a wrong pattern keeps rules from being compiled. The automaton is well formed and starts in
state 0, every state is reached, the dead state has neither a code nor transitions, and the sets that
leave any other state are nonempty, disjoint, hold every symbol and lead to different targets. -/
theorem compile_shape (config : Config) (rules : List (Rule α)) :
    (∃ e, labelledFragments rules = .error e ∧ compile config rules = .error (.pattern e)) ∨
      ∃ d, compile config rules = .ok d ∧ d.WellFormed ∧ d.start = 0 ∧
        (∀ i < d.size, ∃ word, d.run? d.start word = .ok (some i)) ∧
        (∀ i, d.dead = some i → ∃ s, d.states[i]? = some s ∧ s.code = none ∧ s.transitions = []) ∧
        ∀ i s, d.states[i]? = some s → d.dead ≠ some i →
          RangeSet.IsPartition (s.transitions.map Prod.fst) ∧
            (s.transitions.map Prod.snd).Nodup := by
  cases hentries : labelledFragments rules with
  | error e =>
    refine .inl ⟨e, rfl, ?_⟩
    rw [compile, hentries]
    rfl
  | ok entries =>
    obtain ⟨d, hd, hconnected, -⟩ := compile_eq config hentries
    have htidy := compile_tidy hd
    have hwf := hconnected.wellFormed
    refine .inr ⟨d, hd, hwf, htidy.start_eq, ?_, ?_, ?_⟩
    · intro i hi
      obtain ⟨word, hword⟩ := hconnected.reached hi
      exact ⟨word, by rw [hwf.run?_eq hwf.1, hword]⟩
    · intro i hdead
      obtain ⟨s, hs⟩ := Dfa.exists_state (hwf.2.1 i hdead)
      obtain ⟨htrans, hcode⟩ := hconnected.deadInert i hdead s hs
      exact ⟨s, hs, hcode, htrans⟩
    · intro i s hs hdead
      have hi : i < d.size := (Array.getElem?_eq_some_iff.1 hs).1
      rw [← Dfa.transitions_of_state hs]
      exact ⟨hconnected.isPartition htidy hi hdead, htidy.targets_nodup i⟩

theorem keywordRules_shape :
    ∃ d, compile ⟨true, .firstDeclared⟩ keywordRules = .ok d ∧ d.WellFormed ∧ d.start = 0 ∧
      ∀ i s, d.states[i]? = some s → d.dead ≠ some i →
        RangeSet.IsPartition (s.transitions.map Prod.fst) ∧
          (s.transitions.map Prod.snd).Nodup := by
  obtain ⟨entries, hentries⟩ := exists_keywordEntries
  rcases compile_shape ⟨true, .firstDeclared⟩ keywordRules with
    ⟨e, he, -⟩ | ⟨d, hd, hwf, hstart, -, -, hleaving⟩
  · rw [hentries] at he
    cases he
  · exact ⟨d, hd, hwf, hstart, hleaving⟩

end Munch
