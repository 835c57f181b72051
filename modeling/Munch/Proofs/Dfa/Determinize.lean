-- SUMMARY: A word leads to the state for the set of states that it leads to in the old automaton.
import Munch.Proofs.Dfa.Subset

/-! # Determinized automata

The states stand for the sets of states that arise from words, one for each
set, and a symbol leads from the state for a set to the state for the set that
the symbol leads to. Nothing leaves the dead state, which stands for the empty
set: there the run of a word ends, and every longer word leads to the empty
set too. -/

namespace Munch

variable {σ α : Type} [Symbol σ] [Ord α] {n : Nfa σ α}

/-! ## The states and their sets -/

/-- The states of the result stand for the sets that arise from words. -/
structure Subsets.Faithful (n : Nfa σ α) (r : Subsets σ α) : Prop where
  wellFormed : r.dfa.WellFormed
  deadInert : r.dfa.DeadInert
  start_eq : r.dfa.start = 0
  set?_start : r.set? 0 = some (n.after [])
  state?_iff : ∀ {s i}, r.state? s = some i ↔ r.set? i = some s
  set?_isSome_iff : ∀ {i}, (r.set? i).isSome ↔ i < r.dfa.size
  code_eq : ∀ {s i}, r.set? i = some s → r.dfa.code i = n.codeOf s
  dead_iff : ∀ {i}, r.dfa.dead = some i ↔ r.set? i = some ∅
  next_eq : ∀ {s i}, r.set? i = some s → s ≠ ∅ → ∀ x,
    ∃ j, r.dfa.next i x = some j ∧ r.set? j = some (n.step s x)
  arises : ∀ {s i}, r.set? i = some s → ∃ word, n.after word = s

namespace Nfa.Search.Invariant

variable {q : Search σ α} {s : StateSet} {i : Nat}

theorem pending_eq (hq : Invariant n [] q) (hqueue : q.queue = []) : q.pending = [] := by
  refine List.eq_nil_iff_forall_not_mem.2 fun e he => ?_
  have hmem := (hq.waits e he).2
  rw [hqueue] at hmem
  cases hmem

theorem placed_perm (hq : Invariant n [] q) (hqueue : q.queue = []) (hs : q.sets[i]? = some s) :
    (q.placed i).Perm (expected n s) := by
  have hperm := hq.moves_perm hs
  rwa [hq.pending_eq hqueue, List.append_nil, promised, List.filter_nil, List.map_nil,
    List.append_nil] at hperm

theorem transitions_disjoint (hq : Invariant n [] q) (hqueue : q.queue = [])
    (hs : q.sets[i]? = some s) :
    (q.dfa.transitions i).Pairwise fun t u => t.1.isDisjoint u.1 = true := by
  have hpairwise : (q.placed i).Pairwise fun t u => t.1.isDisjoint u.1 = true := by
    refine ((hq.placed_perm hqueue hs).pairwise_iff ?_).2 (expected_disjoint n s)
    intro t u htu
    rw [RangeSet.isDisjoint_comm]
    exact htu
  exact List.pairwise_map.1 hpairwise

theorem wellFormed (hq : Invariant n [] q) (hqueue : q.queue = []) : q.dfa.WellFormed := by
  have hsize : q.dfa.size = q.sets.length := hq.size_eq
  refine ⟨?_, ?_, ?_⟩
  · have hhead := hq.head_eq
    rw [hqueue, List.append_nil] at hhead
    rw [hsize]
    exact List.length_pos_of_mem (List.mem_of_head? hhead)
  · intro id hid
    rw [hsize]
    exact (List.getElem?_eq_some_iff.1 (hq.dead_iff.1 hid)).1
  · intro state hstate
    obtain ⟨i, hi, hstate⟩ := Array.mem_iff_getElem.1 (Array.mem_toList_iff.1 hstate)
    have htrans : q.dfa.transitions i = state.transitions :=
      Dfa.transitions_of_state (hstate ▸ Array.getElem?_eq_getElem hi)
    have hlt : i < q.sets.length := hsize ▸ hi
    rw [← htrans, hsize]
    exact ⟨fun t ht => hq.target_lt hlt ht,
      hq.transitions_disjoint hqueue (List.getElem?_eq_getElem hlt)⟩

theorem deadInert (hq : Invariant n [] q) (hqueue : q.queue = []) : q.dfa.DeadInert := by
  intro id hid state hstate
  have hs : q.sets[id]? = some ∅ := hq.dead_iff.1 hid
  have htrans : q.dfa.transitions id = [] :=
    List.map_eq_nil_iff.1 (hq.placed_perm hqueue hs).eq_nil
  have hcode : q.dfa.code id = none := hq.code_eq hs
  rw [Dfa.transitions_of_state hstate] at htrans
  rw [Dfa.code_of_state hstate] at hcode
  exact ⟨htrans, hcode⟩

theorem next_eq (hq : Invariant n [] q) (hqueue : q.queue = []) (hs : q.sets[i]? = some s)
    (hne : s ≠ ∅) (x : σ) : ∃ j, q.dfa.next i x = some j ∧ q.sets[j]? = some (n.step s x) := by
  obtain ⟨set, hmove, hx⟩ := (labels_moves (n := n) (s := s) (x := x)).2 rfl
  have hempty : ¬ s.isEmpty = true := fun h => hne (StateSet.isEmpty_iff_eq.1 h)
  have hexpected : (set, some (n.step s x)) ∈ expected n s := by
    rw [expected, if_neg hempty]
    exact List.mem_map.2 ⟨_, hmove, rfl⟩
  obtain ⟨t, ht, heq⟩ := List.mem_map.1 ((hq.placed_perm hqueue hs).symm.subset hexpected)
  obtain ⟨rfl, hset⟩ := Prod.mk.inj heq
  exact ⟨t.2, (hq.wellFormed hqueue).next_eq_some_iff.2 ⟨t.1, ht, hx⟩, hset⟩

theorem faithful (hq : Invariant n [] q) (hqueue : q.queue = []) : q.result.Faithful n where
  wellFormed := hq.wellFormed hqueue
  deadInert := hq.deadInert hqueue
  start_eq := rfl
  set?_start := by
    have hhead := hq.head_eq
    rw [hqueue, List.append_nil, List.head?_eq_getElem?] at hhead
    exact hhead
  state?_iff := hq.number_iff
  set?_isSome_iff := by
    intro i
    have hsize : q.result.dfa.size = q.sets.length := hq.size_eq
    rw [hsize]
    show (q.sets[i]?).isSome ↔ _
    simp
  code_eq := hq.code_eq
  dead_iff := hq.dead_iff
  next_eq := hq.next_eq hqueue
  arises := by
    intro s i hs
    exact hq.arises s (List.mem_append_left _ (List.mem_of_getElem? hs))

end Nfa.Search.Invariant

theorem Nfa.WellFormed.determinize_eq (h : n.WellFormed) :
    ∃ r, n.determinize = .ok r ∧ r.Faithful n := by
  obtain ⟨q, hsearch, hq, hqueue⟩ := h.search?_eq
  exact ⟨q.result, by rw [determinize, hsearch]; rfl, hq.faithful hqueue⟩

/-! ## Words -/

namespace Subsets.Faithful

variable {r : Subsets σ α} {s : StateSet} {i : Nat}

/-- A run ends in the state for the set that the word leads to, or it has entered the dead state
and not ended there. -/
theorem run_from (hr : r.Faithful n) (h : n.WellFormed) (hs : r.set? i = some s) (word : List σ) :
    (∃ j, r.dfa.run i word = some j ∧ r.set? j = some (word.foldl n.step s)) ∨
      (word.foldl n.step s = ∅ ∧ ∃ u v j, word = u ++ v ∧ v ≠ [] ∧ r.dfa.run i u = some j ∧
        r.dfa.dead = some j ∧ r.dfa.run i word = none) := by
  induction word generalizing i s with
  | nil => exact .inl ⟨i, rfl, hs⟩
  | cons x word ih =>
    by_cases hne : s = ∅
    · subst hne
      have hdead := hr.dead_iff.2 hs
      refine .inr ⟨h.foldl_step_empty (x :: word), [], x :: word, i, rfl, by simp, rfl, hdead, ?_⟩
      rw [Dfa.run, hr.deadInert.next_eq hdead]
      rfl
    · obtain ⟨j, hnext, hj⟩ := hr.next_eq hs hne x
      have hrun : ∀ rest, r.dfa.run i (x :: rest) = r.dfa.run j rest := by
        intro rest
        rw [Dfa.run, hnext]
        rfl
      rw [hrun, List.foldl_cons]
      rcases ih hj with hlive | ⟨hempty, u, v, k, rfl, hv, hu, hk, hnone⟩
      · exact .inl hlive
      · exact .inr ⟨hempty, x :: u, v, k, rfl, hv, (hrun u).trans hu, hk, hnone⟩

theorem run_start (hr : r.Faithful n) (h : n.WellFormed) (word : List σ) :
    (∃ j, r.dfa.run 0 word = some j ∧ r.set? j = some (n.after word)) ∨
      (n.after word = ∅ ∧ ∃ u v j, word = u ++ v ∧ v ≠ [] ∧ r.dfa.run 0 u = some j ∧
        r.dfa.dead = some j ∧ r.dfa.run 0 word = none) :=
  hr.run_from h hr.set?_start word

/-- The code that a word ends on is that of the set that it leads to. -/
theorem codeAfter_eq (hr : r.Faithful n) (h : n.WellFormed) (word : List σ) :
    r.dfa.codeAfter r.dfa.start word = n.codeOf (n.after word) := by
  rw [hr.start_eq, Dfa.codeAfter]
  rcases hr.run_start h word with ⟨j, hrun, hj⟩ | ⟨hempty, -, -, -, -, -, -, -, hnone⟩
  · rw [hrun]
    exact hr.code_eq hj
  · rw [hnone, hempty]
    rfl

/-- A set has a state exactly if it arises from a word. -/
theorem state?_isSome_iff (hr : r.Faithful n) (h : n.WellFormed) :
    (r.state? s).isSome ↔ ∃ word, n.after word = s := by
  constructor
  · intro hs
    obtain ⟨i, hi⟩ := Option.isSome_iff_exists.1 hs
    exact hr.arises (hr.state?_iff.1 hi)
  · rintro ⟨word, rfl⟩
    rcases hr.run_start h word with ⟨j, -, hj⟩ | ⟨hempty, -, -, j, -, -, -, hdead, -⟩
    · rw [hr.state?_iff.2 hj]
      rfl
    · rw [hempty, hr.state?_iff.2 (hr.dead_iff.1 hdead)]
      rfl

/-- Every state is reached by some word. -/
theorem exists_run (hr : r.Faithful n) (h : n.WellFormed) (hi : i < r.dfa.size) :
    ∃ word, r.dfa.run 0 word = some i := by
  obtain ⟨s, hs⟩ := Option.isSome_iff_exists.1 (hr.set?_isSome_iff.2 hi)
  obtain ⟨word, rfl⟩ := hr.arises hs
  have hunique : ∀ {j}, r.set? j = some (n.after word) → j = i := by
    intro j hj
    have := (hr.state?_iff.2 hj).symm.trans (hr.state?_iff.2 hs)
    exact Option.some.inj this
  rcases hr.run_start h word with ⟨j, hrun, hj⟩ | ⟨hempty, u, v, j, -, -, hrun, hdead, -⟩
  · exact ⟨word, hunique hj ▸ hrun⟩
  · exact ⟨u, hunique (hempty ▸ hr.dead_iff.1 hdead) ▸ hrun⟩

end Subsets.Faithful

/-! ## Determinization -/

/-- The run of a word from state 0 ends in the state for the set that the word leads to, with the
greatest code of the set, or it has stopped in the dead state earlier, and the set is empty. -/
def Subsets.Follows (n : Nfa σ α) (r : Subsets σ α) (word : List σ) : Prop :=
  (∃ i c, r.dfa.run? 0 word = .ok (some i) ∧ r.set? i = some (n.after word) ∧
    r.state? (n.after word) = some i ∧ r.dfa.code? i = .ok c ∧
    n.IsGreatestCode (n.after word) c) ∨
  (n.after word = ∅ ∧ ∃ u v i, word = u ++ v ∧ v ≠ [] ∧ r.dfa.run? 0 u = .ok (some i) ∧
    r.dfa.dead = some i ∧ r.dfa.run? 0 word = .ok none)

theorem Subsets.Faithful.follows [Std.TransOrd α] {r : Subsets σ α} (hr : r.Faithful n)
    (h : n.WellFormed) (word : List σ) : r.Follows n word := by
  have hzero : 0 < r.dfa.size := hr.start_eq ▸ hr.wellFormed.1
  have hrun : ∀ word, r.dfa.run? 0 word = .ok (r.dfa.run 0 word) := hr.wellFormed.run?_eq hzero
  rw [Follows, hrun]
  rcases hr.run_start h word with ⟨j, hj, hset⟩ | ⟨hempty, u, v, j, hsplit, hv, hu, hdead, hnone⟩
  · have hlt : j < r.dfa.size := hr.set?_isSome_iff.1 (by rw [hset]; rfl)
    refine .inl ⟨j, _, by rw [hj], hset, hr.state?_iff.2 hset, Dfa.code?_eq hlt, ?_⟩
    rw [hr.code_eq hset]
    exact Nfa.isGreatestCode_codeOf n _
  · exact .inr ⟨hempty, u, v, j, hsplit, hv, by rw [hrun, hu], hdead, by rw [hnone]⟩

/-- The construction ends without a fault and with nothing parked. The result follows the sets of
states after each word, and its states and the sets that arise correspond one to one. -/
theorem Nfa.determinize_follows_sets [Std.TransOrd α] (n : Nfa σ α) (h : n.WellFormed) :
    ∃ q, n.search? = .ok q ∧ q.queue = [] ∧ q.pending = [] ∧ n.determinize = .ok q.result ∧
      (∀ word i, i ∈ n.after word ↔ n.Path n.start word i) ∧
      q.result.dfa.start = 0 ∧
      (∀ word, q.result.Follows n word) ∧
      (∀ s i, q.result.state? s = some i ↔ q.result.set? i = some s) ∧
      (∀ i, (q.result.set? i).isSome ↔ i < q.result.dfa.size) ∧
      (∀ s, (q.result.state? s).isSome ↔ ∃ word, n.after word = s) ∧
      (∀ i, q.result.dfa.dead = some i ↔ q.result.set? i = some ∅) ∧
      (q.result.dfa.dead.isSome ↔ ∃ word, n.after word = ∅) := by
  obtain ⟨q, hsearch, hq, hqueue⟩ := h.search?_eq
  have hr := hq.faithful hqueue
  have hdead : q.result.dfa.dead = q.result.state? ∅ := by
    refine Option.ext fun i => ?_
    rw [hr.dead_iff, hr.state?_iff]
  have hdeterminize : n.determinize = .ok q.result := by
    rw [determinize, hsearch]
    rfl
  refine ⟨q, hsearch, hqueue, hq.pending_eq hqueue, hdeterminize, fun word i => h.mem_after,
    hr.start_eq, hr.follows h, fun s i => hr.state?_iff, fun i => hr.set?_isSome_iff,
    fun s => hr.state?_isSome_iff h, fun i => hr.dead_iff, ?_⟩
  rw [hdead]
  exact hr.state?_isSome_iff h

/-- Words of `a`, and words whose first symbol is `a`; the empty word has no code. -/
def Nfa.overlapping : Nfa Char Nat where
  start := 0
  states := #[⟨[⟨none, 1⟩, ⟨some (.only 'a'), 2⟩], none⟩, ⟨[⟨some (.only 'a'), 3⟩], none⟩,
    ⟨[⟨some .full, 2⟩], some 4⟩, ⟨[⟨none, 1⟩], some 9⟩]

theorem Nfa.overlapping_follows_sets : overlapping.WellFormed ∧
    ∃ q, overlapping.search? = .ok q ∧ q.pending = [] ∧
      (∀ word, q.result.Follows overlapping word) ∧
      (∀ s, (q.result.state? s).isSome ↔ ∃ word, overlapping.after word = s) := by
  have h : overlapping.WellFormed := by decide
  obtain ⟨q, hsearch, -, hpending, -, -, -, hfollows, -, -, harises, -⟩ :=
    determinize_follows_sets overlapping h
  exact ⟨h, q, hsearch, hpending, hfollows, harises⟩

end Munch
