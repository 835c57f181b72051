-- SUMMARY: The moves from a set are a partition of the domain; each leads where its symbols lead.
import Munch.Proofs.Nfa.Words
import Munch.Proofs.Checked
import Munch.Proofs.RangeSet.Atoms

/-! # Moves and codes

The pieces that the edges cut the domain into are not cut by any edge, so a
piece leads where each of its symbols does. -/

namespace Munch.Nfa

open RangeSet (Labels)

variable {σ α : Type} [Symbol σ] {n : Nfa σ α} {s t : StateSet} {x : σ}

/-! ## Moves -/

theorem destination_eq_step {piece : RangeSet σ}
    (hpiece : piece ∈ Splitter.atoms ((n.outgoing s).map Prod.fst)) (hx : x ∈ piece) :
    n.destination (n.outgoing s) piece = n.step s x := by
  have hfilter : (n.outgoing s).filter (fun e => !e.1.isDisjoint piece) =
      (n.outgoing s).filter (·.1.contains x) := by
    refine List.filter_congr fun e he => ?_
    rw [Splitter.isDisjoint_atom (List.mem_map_of_mem he) hpiece hx, Bool.not_not]
  rw [destination, hfilter, step]

theorem labels_moves : Labels (n.moves s) x t ↔ t = n.step s x := by
  have hatoms := Splitter.atoms_isPartition ((n.outgoing s).map Prod.fst)
  rw [moves, RangeSet.labels_gatherAll]
  constructor
  · rintro ⟨piece, hmem, hx⟩
    obtain ⟨p, hp, heq⟩ := List.mem_map.1 hmem
    cases heq
    exact destination_eq_step hp hx
  · rintro rfl
    obtain ⟨p, hp, hx⟩ := hatoms.cover x
    exact ⟨p, List.mem_map.2 ⟨p, hp, by rw [destination_eq_step hp hx]⟩, hx⟩

theorem moves_nonempty {move : RangeSet σ × StateSet} (h : move ∈ n.moves s) :
    ∃ x, x ∈ move.1 := by
  refine RangeSet.gatherAll_nonempty ?_ move h
  intro e he
  obtain ⟨p, hp, rfl⟩ := List.mem_map.1 he
  exact (Splitter.atoms_isPartition _).nonempty hp

theorem moves_nodup (n : Nfa σ α) (s : StateSet) : ((n.moves s).map Prod.snd).Nodup :=
  RangeSet.nodup_gatherAll _

theorem moves_disjoint (n : Nfa σ α) (s : StateSet) :
    (n.moves s).Pairwise fun m m' => m.1.isDisjoint m'.1 = true := by
  refine RangeSet.pairwise_isDisjoint (moves_nodup n s) ?_
  intro x t t' ht ht'
  rw [labels_moves.1 ht, labels_moves.1 ht']

/-- Each move leads where some symbol leads. -/
theorem exists_step_of_mem_moves {move : RangeSet σ × StateSet} (h : move ∈ n.moves s) :
    ∃ x, x ∈ move.1 ∧ move.2 = n.step s x := by
  obtain ⟨x, hx⟩ := moves_nonempty h
  exact ⟨x, hx, labels_moves.1 ⟨move.1, h, hx⟩⟩

theorem WellFormed.step_eq_empty (h : n.WellFormed) (hx : ∀ j, ¬ n.LeadsTo s x j) :
    n.step s x = ∅ := by
  refine StateSet.ext fun j => iff_of_false ?_ StateSet.not_mem_empty
  intro hj
  obtain ⟨target, htarget, -⟩ := h.mem_step.1 hj
  exact hx target htarget

theorem WellFormed.step_empty (h : n.WellFormed) (x : σ) : n.step ∅ x = ∅ :=
  h.step_eq_empty fun _ ⟨_, hi, _⟩ => StateSet.not_mem_empty hi

theorem WellFormed.foldl_step_empty (h : n.WellFormed) (word : List σ) :
    word.foldl n.step ∅ = ∅ := by
  induction word with
  | nil => rfl
  | cons x word ih => rw [List.foldl_cons, h.step_empty, ih]

theorem WellFormed.step_lt (h : n.WellFormed) (s : StateSet) (x : σ) :
    ∀ i ∈ n.step s x, i < n.size := by
  intro i hi
  obtain ⟨target, ⟨_, -, _, he, -⟩, hp⟩ := h.mem_step.1 hi
  exact Path.lt h (h.target_lt he) hp

/-! ## Codes -/

section Codes

variable [Ord α]

theorem greatest_eq_none {codes : List α} (h : greatest codes = none) : codes = [] := by
  cases codes with
  | nil => rfl
  | cons c codes => cases h

variable [Std.TransOrd α]

theorem foldl_greatest (codes : List α) (best : α) :
    let c := codes.foldl (fun best c => if (compare c best).isGE then c else best) best
    (c = best ∨ c ∈ codes) ∧ (compare best c).isLE ∧ ∀ c' ∈ codes, (compare c' c).isLE := by
  induction codes generalizing best with
  | nil => exact ⟨.inl rfl, Std.ReflCmp.isLE_rfl, by simp⟩
  | cons d codes ih =>
    rw [List.foldl_cons]
    by_cases hge : (compare d best).isGE
    · rw [if_pos hge]
      obtain ⟨hmem, hle, hall⟩ := ih d
      refine ⟨.inr ?_, ?_, List.forall_mem_cons.2 ⟨hle, hall⟩⟩
      · exact List.mem_cons.2 hmem
      · exact Std.TransCmp.isLE_trans (Std.OrientedCmp.isGE_iff_isLE.1 hge) hle
    · rw [if_neg hge]
      obtain ⟨hmem, hle, hall⟩ := ih best
      have hd : (compare d best).isLE := by
        cases h : compare d best <;> simp_all
      refine ⟨hmem.imp_right (List.mem_cons_of_mem _), hle, List.forall_mem_cons.2 ⟨?_, hall⟩⟩
      exact Std.TransCmp.isLE_trans hd hle

theorem greatest_eq_some {codes : List α} {c : α} (h : greatest codes = some c) :
    c ∈ codes ∧ ∀ c' ∈ codes, (compare c' c).isLE := by
  cases codes with
  | nil => cases h
  | cons b codes =>
    obtain ⟨hmem, hle, hall⟩ := foldl_greatest codes b
    cases h
    exact ⟨List.mem_cons.2 hmem, List.forall_mem_cons.2 ⟨hle, hall⟩⟩

theorem isGreatestCode_codeOf (n : Nfa σ α) (s : StateSet) : n.IsGreatestCode s (n.codeOf s) := by
  have hmem : ∀ {c}, c ∈ s.ids.filterMap n.code? ↔ ∃ i ∈ s, n.code? i = some c := List.mem_filterMap
  cases hc : n.codeOf s with
  | none =>
    intro i hi
    cases hi' : n.code? i with
    | none => rfl
    | some c =>
      have := hmem.2 ⟨i, hi, hi'⟩
      rw [greatest_eq_none hc] at this
      cases this
  | some c =>
    obtain ⟨hc, hall⟩ := greatest_eq_some hc
    exact ⟨hmem.1 hc, fun i hi c' hi' => hall c' (hmem.2 ⟨i, hi, hi'⟩)⟩

end Codes

/-! ## Checked operations -/

theorem present?_eq (hs : ∀ i ∈ s, i < n.size) : n.present? s = .ok s := by
  have hnone : s.ids.find? (n.size ≤ ·) = none := by
    refine List.find?_eq_none.2 fun i hi => ?_
    have := hs i hi
    simpa using this
  rw [present?, hnone]

theorem present?_eq_ok (h : n.present? s = .ok t) : s = t ∧ ∀ i ∈ s, i < n.size := by
  rw [present?] at h
  split at h
  case h_1 => cases h
  case h_2 hnone =>
    refine ⟨Except.ok.inj h, fun i hi => ?_⟩
    simpa using List.find?_eq_none.1 hnone i hi

theorem WellFormed.closure?_eq (h : n.WellFormed) (hs : ∀ i ∈ s, i < n.size) :
    n.closure? s = .ok (n.closure s) :=
  present?_eq (h.closure_lt hs)

theorem WellFormed.moves?_eq (h : n.WellFormed) (hs : ∀ i ∈ s, i < n.size) :
    n.moves? s = .ok (n.moves s) := by
  rw [moves?, present?_eq hs, Checked.ok_bind]
  refine (Checked.mapM_eq (g := id) fun move hmove => ?_).trans (by rw [List.map_id])
  obtain ⟨x, -, hstep⟩ := exists_step_of_mem_moves hmove
  rw [present?_eq (hstep ▸ h.step_lt s x)]
  rfl

theorem codeOf?_eq [Ord α] (hs : ∀ i ∈ s, i < n.size) : n.codeOf? s = .ok (n.codeOf s) := by
  rw [codeOf?, present?_eq hs]
  rfl

/-! ## Symbol by symbol -/

theorem WellFormed.exists_targets (h : n.WellFormed) (s : StateSet) (x : σ) :
    ∃ targets : StateSet, (∀ j, j ∈ targets ↔ n.LeadsTo s x j) ∧
      n.closure? targets = .ok (n.step s x) := by
  refine ⟨_, fun j => mem_targets, h.closure?_eq fun j hj => ?_⟩
  obtain ⟨i, -, set, he, -⟩ := mem_targets.1 hj
  exact h.target_lt he

theorem moves_isPartition (n : Nfa σ α) (s : StateSet) :
    RangeSet.IsPartition ((n.moves s).map Prod.fst) where
  nonempty {p} hp := by
    obtain ⟨move, hmove, rfl⟩ := List.mem_map.1 hp
    exact moves_nonempty hmove
  disjoint := List.pairwise_map.2 (moves_disjoint n s)
  cover x := by
    obtain ⟨set, hmem, hx⟩ := labels_moves.2 (rfl : n.step s x = n.step s x)
    exact ⟨set, List.mem_map.2 ⟨_, hmem, rfl⟩, hx⟩

/-- Moves from a set that do with each symbol what the edges do. The sets are a partition of the
domain and lead to different destinations. A symbol leads to the closed set of the targets of the
edges that read it, and to the empty set if there are none. -/
structure Simulates (n : Nfa σ α) (s : StateSet) (moves : List (RangeSet σ × StateSet)) : Prop where
  partition : RangeSet.IsPartition (moves.map Prod.fst)
  distinct : (moves.map Prod.snd).Nodup
  closure : ∀ move ∈ moves, ∀ x ∈ move.1, ∃ targets : StateSet,
    (∀ j, j ∈ targets ↔ n.LeadsTo s x j) ∧ n.closure? targets = .ok move.2
  mem_iff : ∀ move ∈ moves, ∀ x ∈ move.1, ∀ j,
    j ∈ move.2 ↔ ∃ target, n.LeadsTo s x target ∧ n.Path target [] j
  empty : ∀ move ∈ moves, ∀ x ∈ move.1, (∀ j, ¬ n.LeadsTo s x j) → move.2 = ∅

theorem moves?_simulates (n : Nfa σ α) (h : n.WellFormed) (s : StateSet)
    (hs : ∀ i ∈ s, i < n.size) : ∃ moves, n.moves? s = .ok moves ∧ n.Simulates s moves := by
  have hstep : ∀ move ∈ n.moves s, ∀ x ∈ move.1, move.2 = n.step s x :=
    fun move hmove x hx => labels_moves.1 ⟨move.1, hmove, hx⟩
  refine ⟨n.moves s, h.moves?_eq hs, moves_isPartition n s, moves_nodup n s, ?_, ?_, ?_⟩
  · intro move hmove x hx
    rw [hstep move hmove x hx]
    exact h.exists_targets s x
  · intro move hmove x hx j
    rw [hstep move hmove x hx]
    exact h.mem_step
  · intro move hmove x hx hnone
    rw [hstep move hmove x hx]
    exact h.step_eq_empty hnone

/-- Two edges whose sets overlap. What only the first one reads leads to the same states as what
both read. -/
def crossing : Nfa Char Nat where
  start := 0
  states := #[⟨[⟨some (.range 'a' 'f'), 1⟩, ⟨some (.range 'd' 'k'), 2⟩], none⟩, ⟨[⟨none, 2⟩], none⟩,
    ⟨[], some 7⟩]

theorem crossing_simulates : crossing.WellFormed ∧ (∀ i ∈ ({0} : StateSet), i < crossing.size) ∧
    ∃ moves, crossing.moves? {0} = .ok moves ∧ crossing.Simulates {0} moves := by
  have h : crossing.WellFormed := by decide
  have hs : ∀ i ∈ ({0} : StateSet), i < crossing.size := by
    intro i hi
    rw [StateSet.mem_singleton.1 hi]
    decide
  exact ⟨h, hs, moves?_simulates crossing h {0} hs⟩

end Munch.Nfa
