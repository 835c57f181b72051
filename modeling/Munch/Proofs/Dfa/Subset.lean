-- SUMMARY: The subset construction ends, and its states are the sets that arise from words.
import Munch.Dfa.Subset
import Munch.Proofs.Dfa.Builder
import Munch.Proofs.Nfa.Moves
import Mathlib.Data.List.Perm.Basic

/-! # Subset construction

The transitions of a state whose set has been explored are spread over three
places: some are in the automaton, some are parked, and some are still in the
hand of the step that adds them. Together they are always the moves from the
set. When the queue is empty nothing is parked, and the transitions are the
moves. -/

namespace Munch

variable {σ α : Type} [Symbol σ]

namespace Nfa.Search

variable {n : Nfa σ α} {q : Search σ α} {s t : StateSet} {i : Nat} {e : Parked σ}
  {hand : List (Parked σ)}

/-! ## The invariant -/

def dfa (q : Search σ α) : Dfa σ α := q.builder.build 0 q.dead

/-- The transitions in the automaton, with the sets they lead to. -/
def placed (q : Search σ α) (id : Nat) : List (RangeSet σ × Option StateSet) :=
  (q.dfa.transitions id).map fun t => (t.1, q.sets[t.2]?)

/-- The transitions that a state will get from some entries. -/
def promised (entries : List (Parked σ)) (id : Nat) : List (RangeSet σ × Option StateSet) :=
  (entries.filter (·.source = id)).map fun e => (e.set, some e.destination)

/-- The transitions that the state for a set should have. -/
def expected (n : Nfa σ α) (s : StateSet) : List (RangeSet σ × Option StateSet) :=
  if s.isEmpty then [] else (n.moves s).map fun m => (m.1, some m.2)

/-- The entries by which a set is left. -/
def leaving (n : Nfa σ α) (id : Nat) (s : StateSet) : List (Parked σ) :=
  if s.isEmpty then [] else (n.moves s).map fun m => ⟨id, m.1, m.2⟩

/-- What holds between the steps of the construction, the entries of `hand` being still to add. -/
structure Invariant [Ord α] (n : Nfa σ α) (hand : List (Parked σ)) (q : Search σ α) : Prop where
  size_eq : q.builder.size = q.sets.length
  number_iff : ∀ {s i}, q.number? s = some i ↔ q.sets[i]? = some s
  code_eq : ∀ {s i}, q.sets[i]? = some s → q.dfa.code i = n.codeOf s
  dead_iff : ∀ {i}, q.dead = some i ↔ q.sets[i]? = some ∅
  source_lt : ∀ e ∈ q.pending ++ hand, e.source < q.sets.length
  moves_perm : ∀ {s i}, q.sets[i]? = some s →
    (q.placed i ++ promised (q.pending ++ hand) i).Perm (expected n s)
  waits : ∀ e ∈ q.pending, q.number? e.destination = none ∧ e.destination ∈ q.queue
  arises : ∀ s ∈ q.sets ++ q.queue, ∃ word, n.after word = s
  head_eq : (q.sets ++ q.queue).head? = some (n.after [])

theorem promised_append (l l' : List (Parked σ)) (i : Nat) :
    promised (l ++ l') i = promised l i ++ promised l' i := by
  rw [promised, List.filter_append, List.map_append]
  rfl

theorem promised_eq_nil {entries : List (Parked σ)} (h : ∀ e ∈ entries, e.source ≠ i) :
    promised entries i = [] := by
  have hnone : entries.filter (·.source = i) = [] :=
    List.filter_eq_nil_iff.2 fun e he => by simpa using h e he
  rw [promised, hnone, List.map_nil]

theorem source_of_mem_leaving {id : Nat} (he : e ∈ leaving n id s) : e.source = id := by
  rw [leaving] at he
  split at he
  · cases he
  · obtain ⟨m, -, rfl⟩ := List.mem_map.1 he
    rfl

theorem promised_leaving (n : Nfa σ α) (s : StateSet) (i : Nat) :
    promised (leaving n i s) i = expected n s := by
  have hall : (leaving n i s).filter (·.source = i) = leaving n i s :=
    List.filter_eq_self.2 fun e he => by simpa using source_of_mem_leaving he
  rw [promised, hall, leaving, expected]
  split
  · rfl
  · rw [List.map_map]
    rfl

theorem expected_disjoint (n : Nfa σ α) (s : StateSet) :
    (expected n s).Pairwise fun t u => t.1.isDisjoint u.1 = true := by
  rw [expected]
  split
  · exact .nil
  · exact List.pairwise_map.2 (moves_disjoint n s)

theorem mem_expected {set : RangeSet σ} {destination : Option StateSet}
    (h : (set, destination) ∈ expected n s) :
    ¬ s.isEmpty = true ∧ ∃ t, destination = some t ∧ (set, t) ∈ n.moves s := by
  rw [expected] at h
  split at h
  case isTrue => cases h
  case isFalse hs =>
    obtain ⟨m, hm, heq⟩ := List.mem_map.1 h
    cases heq
    exact ⟨hs, m.2, rfl, hm⟩

theorem getElem?_concat_eq_some_iff {sets : List StateSet} :
    (sets ++ [s])[i]? = some t ↔ sets[i]? = some t ∨ (i = sets.length ∧ t = s) := by
  rcases Nat.lt_trichotomy i sets.length with hi | rfl | hi
  · rw [List.getElem?_append_left hi]
    simp [Nat.ne_of_lt hi]
  · simp [eq_comm]
  · rw [List.getElem?_eq_none (by simp; omega), List.getElem?_eq_none (Nat.le_of_lt hi)]
    simp [Nat.ne_of_gt hi]

namespace Invariant

variable [Ord α]

/-- An entry in hand is a move from the set of its source. -/
theorem mem_moves (hq : Invariant n hand q) (he : e ∈ q.pending ++ hand) :
    ∃ s, q.sets[e.source]? = some s ∧ (e.set, e.destination) ∈ n.moves s := by
  have hs := List.getElem?_eq_getElem (hq.source_lt e he)
  refine ⟨_, hs, ?_⟩
  have hpromised : (e.set, some e.destination) ∈ promised (q.pending ++ hand) e.source :=
    List.mem_map.2 ⟨e, List.mem_filter.2 ⟨he, by simp⟩, rfl⟩
  have hmem := (hq.moves_perm hs).subset (List.mem_append_right _ hpromised)
  obtain ⟨-, t, ht, hmoves⟩ := mem_expected hmem
  cases ht
  exact hmoves

theorem target_lt (hq : Invariant n hand q) (hi : i < q.sets.length)
    {t : RangeSet σ × Nat} (ht : t ∈ q.dfa.transitions i) : t.2 < q.sets.length := by
  have hplaced : (t.1, q.sets[t.2]?) ∈ q.placed i := List.mem_map.2 ⟨t, ht, rfl⟩
  have hmem := (hq.moves_perm (List.getElem?_eq_getElem hi)).subset
    (List.mem_append_left _ hplaced)
  obtain ⟨-, s, hs, -⟩ := mem_expected hmem
  exact (List.getElem?_eq_some_iff.1 hs).1

theorem disjoint_placed (hq : Invariant n hand q) (he : e ∈ q.pending ++ hand) :
    ∀ t ∈ q.dfa.transitions e.source, t.1.isDisjoint e.set = true := by
  intro t ht
  have hs := List.getElem?_eq_getElem (hq.source_lt e he)
  have hpairwise : (q.placed e.source ++ promised (q.pending ++ hand) e.source).Pairwise
      fun t u => t.1.isDisjoint u.1 = true := by
    refine ((hq.moves_perm hs).pairwise_iff ?_).2 (expected_disjoint n _)
    intro t u htu
    rw [RangeSet.isDisjoint_comm]
    exact htu
  refine (List.pairwise_append.1 hpairwise).2.2 _ (List.mem_map.2 ⟨t, ht, rfl⟩)
    (e.set, some e.destination) ?_
  exact List.mem_map.2 ⟨e, List.mem_filter.2 ⟨he, by simp⟩, rfl⟩

theorem not_mem_sets (hq : Invariant n hand q) (hs : q.number? s = none) (i : Nat) :
    ¬ q.sets[i]? = some s := by
  intro hi
  rw [← hq.number_iff, hs] at hi
  cases hi

/-! ## Steps -/

/-- A transition to a set without a number is parked, and the set waits. -/
theorem park (hq : Invariant n (e :: hand) q) (hnumber : q.number? e.destination = none) :
    Invariant n hand
      { q with pending := q.pending ++ [e], queue := q.queue ++ [e.destination] } where
  size_eq := hq.size_eq
  number_iff := hq.number_iff
  code_eq := hq.code_eq
  dead_iff := hq.dead_iff
  source_lt := by simpa using hq.source_lt
  moves_perm hs := by
    have hperm := hq.moves_perm hs
    rw [List.append_cons] at hperm
    exact hperm
  waits e' he' := by
    rcases List.mem_append.1 he' with he' | he'
    · obtain ⟨hnone, hmem⟩ := hq.waits e' he'
      exact ⟨hnone, List.mem_append_left _ hmem⟩
    · cases List.mem_singleton.1 he'
      exact ⟨hnumber, List.mem_append_right _ (List.mem_singleton_self _)⟩
  arises t ht := by
    rw [← List.append_assoc] at ht
    rcases List.mem_append.1 ht with ht | ht
    · exact hq.arises t ht
    · cases List.mem_singleton.1 ht
      obtain ⟨s, hs, hmove⟩ := hq.mem_moves (e := e) (by simp)
      obtain ⟨word, hword⟩ := hq.arises s (List.mem_append_left _ (List.mem_of_getElem? hs))
      obtain ⟨x, -, hstep⟩ := exists_step_of_mem_moves hmove
      refine ⟨word ++ [x], ?_⟩
      rw [after_append, hword]
      exact hstep.symm
  head_eq := by
    rw [← List.append_assoc, List.head?_append, hq.head_eq]
    rfl

/-- A transition to a set with a number is added to the automaton. -/
theorem place {target : Nat} {b : Dfa.Builder σ α} (hq : Invariant n (e :: hand) q)
    (hnumber : q.number? e.destination = some target) (hsize : b.size = q.builder.size)
    (hcode : ∀ i, (b.build 0 q.dead).code i = q.dfa.code i)
    (htrans : ∀ i, (b.build 0 q.dead).transitions i =
      q.dfa.transitions i ++ if i = e.source then [(e.set, target)] else []) :
    Invariant n hand { q with builder := b } where
  size_eq := hsize.trans hq.size_eq
  number_iff := hq.number_iff
  code_eq {_ i} hs := (hcode i).trans (hq.code_eq hs)
  dead_iff := hq.dead_iff
  source_lt e' he' := by
    refine hq.source_lt e' ?_
    rcases List.mem_append.1 he' with he' | he'
    · exact List.mem_append_left _ he'
    · exact List.mem_append_right _ (List.mem_cons_of_mem _ he')
  moves_perm {s i} hs := by
    have hplaced : placed { q with builder := b } i = q.placed i ++ promised [e] i := by
      show ((b.build 0 q.dead).transitions i).map _ = (q.dfa.transitions i).map _ ++ _
      rw [htrans i, List.map_append, promised]
      congr 1
      by_cases hi : i = e.source
      · simp [hi, hq.number_iff.1 hnumber]
      · simp [hi, Ne.symm hi]
    have hperm : (e :: (q.pending ++ hand)).Perm (q.pending ++ e :: hand) :=
      List.perm_middle.symm
    refine List.Perm.trans ?_ (hq.moves_perm hs)
    rw [hplaced, List.append_assoc]
    refine List.Perm.append_left _ ?_
    rw [← promised_append]
    exact (hperm.filter _).map _
  waits := hq.waits
  arises := hq.arises
  head_eq := hq.head_eq

theorem link (hq : Invariant n (e :: hand) q) : ∃ q', q.link? e = .ok q' ∧ Invariant n hand q' := by
  have he : e ∈ q.pending ++ e :: hand := by simp
  rw [link?]
  cases hnumber : q.number? e.destination with
  | none => exact ⟨_, rfl, hq.park hnumber⟩
  | some target =>
    obtain ⟨s, -, hmove⟩ := hq.mem_moves he
    have hsource : e.source < q.builder.size := hq.size_eq ▸ hq.source_lt e he
    obtain ⟨b, hb, hsize, hcode, htrans⟩ :=
      Dfa.Builder.addTransition?_eq hsource (moves_nonempty hmove) (hq.disjoint_placed he)
    exact ⟨{ q with builder := b }, congrArg (· >>= _) hb, hq.place hnumber hsize hcode htrans⟩

theorem links {entries : List (Parked σ)} (hq : Invariant n (entries ++ hand) q) :
    ∃ q', entries.foldlM link? q = .ok q' ∧ Invariant n hand q' := by
  induction entries generalizing q with
  | nil => exact ⟨q, rfl, hq⟩
  | cons e entries ih =>
    obtain ⟨q₁, h₁, hq₁⟩ := hq.link
    obtain ⟨q', h', hq'⟩ := ih hq₁
    refine ⟨q', ?_, hq'⟩
    rw [List.foldlM_cons, h₁]
    exact h'

/-- A set whose number is known has already been explored, and need not wait. -/
theorem skip {queue : List StateSet} (hq : Invariant n hand q) (hqueue : q.queue = s :: queue)
    (hs : q.number? s = some i) : Invariant n hand { q with queue := queue } := by
  refine ⟨hq.size_eq, hq.number_iff, hq.code_eq, hq.dead_iff, hq.source_lt, hq.moves_perm,
    ?_, ?_, ?_⟩
  · intro e he
    obtain ⟨hnone, hmem⟩ := hq.waits e he
    refine ⟨hnone, ?_⟩
    rw [hqueue] at hmem
    rcases List.mem_cons.1 hmem with hmem | hmem
    · rw [hmem, hs] at hnone
      cases hnone
    · exact hmem
  · intro t ht
    refine hq.arises t ?_
    rw [hqueue]
    rcases List.mem_append.1 ht with ht | ht
    · exact List.mem_append_left _ ht
    · exact List.mem_append_right _ (List.mem_cons_of_mem _ ht)
  · have hsets := List.mem_of_getElem? (hq.number_iff.1 hs)
    have hhead := hq.head_eq
    rw [List.head?_append] at hhead ⊢
    cases hcases : q.sets with
    | nil => rw [hcases] at hsets; cases hsets
    | cons t sets => rw [hcases] at hhead; exact hhead

/-- What is parked for a new state changes places, and its own moves come into hand. -/
theorem moves_perm_enter {queue : List StateSet} {code : Option α} (hq : Invariant n [] q)
    (hi : (q.sets ++ [s])[i]? = some t) :
    (Search.placed (Search.enter { q with queue := queue } s code) i ++
      promised (q.pending.filter (·.destination ≠ s) ++
        (q.waiting s ++ leaving n q.builder.size s)) i).Perm (expected n t) := by
  have hplaced : Search.placed (Search.enter { q with queue := queue } s code) i =
      (q.dfa.transitions i).map fun (t : RangeSet σ × Nat) => (t.1, (q.sets ++ [s])[t.2]?) := by
    show (((q.builder.newState code).build 0 _).transitions i).map _ = _
    rw [Dfa.Builder.transitions_newState]
    rfl
  have hpending : (q.pending.filter (·.destination ≠ s) ++ q.waiting s).Perm q.pending := by
    refine List.perm_append_comm.trans ?_
    simpa [waiting] using List.filter_append_perm (fun e => decide (e.destination = s)) q.pending
  have hpromised : (promised (q.pending.filter (·.destination ≠ s) ++ q.waiting s) i).Perm
      (promised q.pending i) := (hpending.filter _).map _
  rw [hplaced, ← List.append_assoc, promised_append]
  rcases getElem?_concat_eq_some_iff.1 hi with hi | ⟨rfl, rfl⟩
  · have hilt := (List.getElem?_eq_some_iff.1 hi).1
    have hleaving : promised (leaving n q.builder.size s) i = [] := by
      refine promised_eq_nil fun e he => ?_
      rw [source_of_mem_leaving he, hq.size_eq]
      omega
    have hold : (q.dfa.transitions i).map (fun t => (t.1, (q.sets ++ [s])[t.2]?)) =
        q.placed i := by
      refine List.map_congr_left fun t ht => ?_
      rw [List.getElem?_append_left (hq.target_lt hilt ht)]
    have hperm := hq.moves_perm hi
    rw [List.append_nil] at hperm
    rw [hold, hleaving, List.append_nil]
    exact (List.Perm.append_left _ hpromised).trans hperm
  · have hnone : q.dfa.transitions q.sets.length = [] := by
      show ((q.builder.states[q.sets.length]?).map _).getD [] = []
      have hbound : q.builder.states.size ≤ q.sets.length := Nat.le_of_eq hq.size_eq
      rw [Array.getElem?_eq_none hbound]
      rfl
    have hnothing : promised q.pending q.sets.length = [] :=
      promised_eq_nil fun e he => Nat.ne_of_lt (hq.source_lt e (List.mem_append_left _ he))
    rw [hnothing] at hpromised
    rw [hnone, hpromised.eq_nil, hq.size_eq, promised_leaving]
    exact .refl _

/-- A set gets its number, and all that waited for it and all that leaves it come into hand. -/
theorem enter {queue : List StateSet} (hq : Invariant n [] q) (hqueue : q.queue = s :: queue)
    (hs : q.number? s = none) :
    Invariant n (q.waiting s ++ leaving n q.builder.size s)
      (Search.enter { q with queue := queue } s (n.codeOf s)) where
  size_eq := by
    show (q.builder.states.push _).size = (q.sets ++ [s]).length
    rw [Array.size_push, List.length_append]
    exact congrArg (· + 1) hq.size_eq
  number_iff {t i} := by
    show (q.numbers.insert s q.builder.size)[t]? = some i ↔ (q.sets ++ [s])[i]? = some t
    rw [Std.HashMap.getElem?_insert, getElem?_concat_eq_some_iff, hq.size_eq]
    by_cases ht : s = t
    · subst ht
      simp [hq.not_mem_sets hs, eq_comm]
    · have hnumber : q.numbers[t]? = some i ↔ q.sets[i]? = some t := hq.number_iff
      simp [ht, Ne.symm ht, hnumber]
  code_eq {t i} hi := by
    show ((q.builder.newState (n.codeOf s)).build 0 _).code i = n.codeOf t
    rw [Dfa.Builder.code_newState, hq.size_eq]
    rcases getElem?_concat_eq_some_iff.1 hi with hi | ⟨rfl, rfl⟩
    · have hlt : i < q.sets.length := (List.getElem?_eq_some_iff.1 hi).1
      rw [if_neg (Nat.ne_of_lt hlt)]
      exact hq.code_eq hi
    · exact if_pos rfl
  dead_iff {i} := by
    show (if s.isEmpty then some q.builder.size else q.dead) = some i ↔
      (q.sets ++ [s])[i]? = some ∅
    rw [getElem?_concat_eq_some_iff, hq.size_eq]
    by_cases hempty : s.isEmpty = true
    · rw [if_pos hempty]
      cases StateSet.isEmpty_iff_eq.1 hempty
      simp [hq.not_mem_sets hs, eq_comm]
    · have hne : ∅ ≠ s := fun h => hempty (StateSet.isEmpty_iff_eq.2 h.symm)
      rw [if_neg hempty, hq.dead_iff]
      simp [hne]
  source_lt e he := by
    show e.source < (q.sets ++ [s]).length
    rw [List.length_append, List.length_singleton]
    have hsource : ∀ e ∈ q.pending, e.source < q.sets.length + 1 :=
      fun e he => Nat.lt_succ_of_lt (hq.source_lt e (List.mem_append_left _ he))
    rcases List.mem_append.1 he with he | he
    · exact hsource e (List.mem_filter.1 he).1
    · rcases List.mem_append.1 he with he | he
      · exact hsource e (List.mem_filter.1 he).1
      · rw [source_of_mem_leaving he, hq.size_eq]
        exact Nat.lt_succ_self _
  moves_perm := hq.moves_perm_enter
  waits e he := by
    obtain ⟨hmem, hne⟩ := List.mem_filter.1 he
    obtain ⟨hnone, hqueued⟩ := hq.waits e hmem
    have hne' : ¬ e.destination = s := by simpa using hne
    rw [hqueue] at hqueued
    refine ⟨?_, (List.mem_cons.1 hqueued).resolve_left hne'⟩
    show (q.numbers.insert s q.builder.size)[e.destination]? = none
    rw [Std.HashMap.getElem?_insert, if_neg (by simpa using Ne.symm hne')]
    exact hnone
  arises t ht := by
    have ht' : t ∈ q.sets ++ s :: queue := by
      rw [List.append_cons]
      exact ht
    exact hq.arises t (hqueue ▸ ht')
  head_eq := by
    show ((q.sets ++ [s]) ++ queue).head? = _
    rw [← List.append_cons, ← hqueue]
    exact hq.head_eq

theorem explore {queue : List StateSet} (h : n.WellFormed) (hq : Invariant n [] q)
    (hqueue : q.queue = s :: queue) (hs : q.number? s = none) :
    ∃ q', explore? n { q with queue := queue } s = .ok q' ∧ Invariant n [] q' := by
  obtain ⟨word, hword⟩ := hq.arises s (by rw [hqueue]; simp)
  have hlt : ∀ i ∈ s, i < n.size := hword ▸ h.after_lt word
  obtain ⟨linked, hlinked, hinv⟩ := (hq.enter hqueue hs).links
  have hlinked' : (waiting { q with queue := queue } s).foldlM link?
      (Search.enter { q with queue := queue } s (n.codeOf s)) = .ok linked := hlinked
  rw [explore?, codeOf?_eq hlt, Checked.ok_bind, hlinked', Checked.ok_bind]
  rw [leaving] at hinv
  by_cases hempty : s.isEmpty = true
  · rw [if_pos hempty] at hinv ⊢
    exact ⟨linked, rfl, hinv⟩
  · rw [if_neg hempty] at hinv ⊢
    rw [h.moves?_eq hlt, Checked.ok_bind]
    rw [← List.append_nil (List.map _ _)] at hinv
    exact hinv.links

/-! ## Runs -/

theorem init (n : Nfa σ α) : Invariant n [] (init (n.after [])) where
  size_eq := rfl
  number_iff {s i} := by simp [Search.init, number?]
  code_eq h := by cases h
  dead_iff {i} := by simp [Search.init]
  source_lt e he := by cases he
  moves_perm h := by cases h
  waits e he := by cases he
  arises s hs := ⟨[], (List.mem_singleton.1 hs).symm⟩
  head_eq := rfl

theorem run (h : n.WellFormed) (hq : Invariant n [] q) :
    ∃ q', q.run? n = .ok q' ∧ Invariant n [] q' ∧ q'.queue = [] := by
  fun_induction run? n q with
  | case1 q hqueue => exact ⟨q, rfl, hq, hqueue⟩
  | case2 q s queue hqueue hs ih =>
    obtain ⟨i, hi⟩ := Option.isSome_iff_exists.1 hs
    exact ih (hq.skip hqueue hi)
  | case3 q s queue hqueue hs fault hfault =>
    obtain ⟨q', hexplore, -⟩ := hq.explore h hqueue (Option.not_isSome_iff_eq_none.1 hs)
    rw [hexplore] at hfault
    cases hfault
  | case4 q s queue hqueue hs q₁ hq₁ ih =>
    obtain ⟨q', hexplore, hinv⟩ := hq.explore h hqueue (Option.not_isSome_iff_eq_none.1 hs)
    rw [hexplore] at hq₁
    cases hq₁
    exact ih hinv

end Invariant

end Nfa.Search

/-- The construction ends with an empty queue. -/
theorem Nfa.WellFormed.search?_eq [Ord α] {n : Nfa σ α} (h : n.WellFormed) :
    ∃ q, n.search? = .ok q ∧ q.Invariant n [] ∧ q.queue = [] := by
  have hstart : ∀ i ∈ ({n.start} : StateSet), i < n.size := by
    intro i hi
    rw [StateSet.mem_singleton.1 hi]
    exact h.1
  rw [search?, h.closure?_eq hstart, Checked.ok_bind]
  exact (Search.Invariant.init n).run h

end Munch
