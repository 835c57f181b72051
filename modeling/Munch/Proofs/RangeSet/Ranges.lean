-- SUMMARY: The ranges of a set are its longest runs of symbols, and put together they give it back.
import Munch.Proofs.RangeSet.Algebra

/-! # Ranges

Two bounds in a row enclose a run of symbols, and a last bound without a partner
begins one that goes on to the end of the domain. Behind each run but such a last
one comes a symbol that is not in the set, so the runs cannot be any longer. -/

namespace Munch.RangeSet

open Munch.Symbol (rank greatest prev?)

variable {σ : Type} [Symbol σ]

/-! ## Pairs of bounds -/

theorem pairs_cons_cons {s e : σ} (h : rank s < rank e) (rest : List σ) :
    ∃ last, rank last + 1 = rank e ∧ pairs (s :: e :: rest) = (s, last) :: pairs rest := by
  cases hprev : prev? e with
  | none =>
    have := Symbol.prev?_eq_none_iff.1 hprev
    omega
  | some last =>
    refine ⟨last, Symbol.rank_prev hprev, ?_⟩
    rw [pairs, hprev]
    rfl

/-! ## Runs -/

section

variable [LE σ] [LT σ]

/-- Runs of symbols, each given by its first and last one, that make up the set. Between a run and
each later one there is a symbol that is not in the set. -/
structure IsRuns (a : RangeSet σ) (runs : List (σ × σ)) : Prop where
  le : ∀ r ∈ runs, r.1 ≤ r.2
  gaps : runs.Pairwise fun r r' => ∃ x, r.2 < x ∧ x < r'.1 ∧ ¬ x ∈ a
  mem_iff : ∀ x, x ∈ a ↔ ∃ r ∈ runs, r.1 ≤ x ∧ x ≤ r.2

theorem isRuns_nil (h : Ascending ([] : List σ)) : IsRuns ⟨[], h⟩ [] where
  le := List.forall_mem_nil _
  gaps := .nil
  mem_iff x := iff_of_false not_mem_empty (by simp)

variable [Symbol.Ordered σ] {a b : RangeSet σ} {runs : List (σ × σ)}

/-- A bound without a partner begins a run up to the end of the domain. -/
theorem isRuns_singleton {s : σ} (h : Ascending [s]) : IsRuns ⟨[s], h⟩ [(s, greatest)] where
  le := by
    have := Symbol.rank_lt s
    simp only [List.mem_singleton, forall_eq, Symbol.Ordered.le_iff, Symbol.rank_greatest]
    omega
  gaps := List.pairwise_singleton ..
  mem_iff x := by
    have := Symbol.rank_lt x
    have hx : x ∈ (⟨[s], h⟩ : RangeSet σ) ↔ rank s ≤ rank x := mem_greaterEqual
    simp only [hx, List.mem_singleton, exists_eq_left, Symbol.Ordered.le_iff, Symbol.rank_greatest]
    omega

namespace IsRuns

theorem lt_first (h : IsRuns a runs) {e : σ} (habove : ∀ x ∈ a, rank e < rank x) {r : σ × σ}
    (hr : r ∈ runs) : rank e < rank r.1 :=
  habove r.1 ((h.mem_iff r.1).2 ⟨r, hr, Symbol.Ordered.le_iff.2 (Nat.le_refl _), h.le r hr⟩)

/-- A run in front of the runs of a set that lies above the bound behind it. -/
theorem cons (h : IsRuns b runs) {s e last : σ} (hse : rank s < rank e)
    (hlast : rank last + 1 = rank e) (habove : ∀ x ∈ b, rank e < rank x)
    (hmem : ∀ x, x ∈ a ↔ rank s ≤ rank x ∧ rank x < rank e ∨ x ∈ b) :
    IsRuns a ((s, last) :: runs) where
  le := by
    have hsl : rank s ≤ rank last := by omega
    exact List.forall_mem_cons.2 ⟨Symbol.Ordered.le_iff.2 hsl, h.le⟩
  gaps := by
    have he : ¬ e ∈ a := fun hea => ((hmem e).1 hea).elim
      (fun hrun => Nat.lt_irrefl _ hrun.2) fun hb => Nat.lt_irrefl _ (habove e hb)
    refine List.pairwise_cons.2 ⟨fun r hr => ⟨e, ?_, ?_, he⟩, ?_⟩
    · exact Symbol.Ordered.lt_iff.2 (Nat.lt_of_succ_le (Nat.le_of_eq hlast))
    · exact Symbol.Ordered.lt_iff.2 (h.lt_first habove hr)
    -- The symbols of the new run lie below the old runs, so they close no gap between these.
    · refine h.gaps.imp_of_mem fun {r r'} hr _ hgap => ?_
      obtain ⟨x, hrx, hxr, hx⟩ := hgap
      refine ⟨x, hrx, hxr, fun hxa => ((hmem x).1 hxa).elim (fun hrun => ?_) hx⟩
      have := h.lt_first habove hr
      have := Symbol.Ordered.le_iff.1 (h.le r hr)
      have := Symbol.Ordered.lt_iff.1 hrx
      omega
  mem_iff x := by
    have hrun : rank s ≤ rank x ∧ rank x < rank e ↔ s ≤ x ∧ x ≤ last := by
      rw [Symbol.Ordered.le_iff (x := s), Symbol.Ordered.le_iff (x := x) (y := last)]
      omega
    rw [hmem, h.mem_iff, List.exists_mem_cons_iff, hrun]

theorem ascending (h : IsRuns a runs) : runs.Pairwise fun r r' => r.2 < r'.1 := by
  refine h.gaps.imp fun hgap => ?_
  obtain ⟨x, hx, hx', -⟩ := hgap
  rw [Symbol.Ordered.lt_iff] at *
  exact Nat.lt_trans hx hx'

/-- A stretch of symbols of the set lies in one run. -/
theorem exists_run (h : IsRuns a runs) {x y : σ} (hxy : x ≤ y)
    (hall : ∀ z, x ≤ z → z ≤ y → z ∈ a) : ∃ r ∈ runs, r.1 ≤ x ∧ y ≤ r.2 := by
  have hrefl : ∀ z : σ, z ≤ z := fun z => Symbol.Ordered.le_iff.2 (Nat.le_refl _)
  obtain ⟨r, hr, hrx, hxr⟩ := (h.mem_iff x).1 (hall x (hrefl x) hxy)
  obtain ⟨r', hr', hry, hyr⟩ := (h.mem_iff y).1 (hall y hxy (hrefl y))
  obtain ⟨i, hi, rfl⟩ := List.getElem_of_mem hr
  obtain ⟨j, hj, rfl⟩ := List.getElem_of_mem hr'
  simp only [Symbol.Ordered.le_iff] at hxy hrx hxr hry hyr hall ⊢
  -- If the runs of both ends were different, the gap between them would be in the stretch.
  rcases Nat.lt_trichotomy i j with hij | rfl | hji
  · obtain ⟨z, hz, hz', hgap⟩ := List.pairwise_iff_getElem.1 h.gaps i j hi hj hij
    rw [Symbol.Ordered.lt_iff] at hz hz'
    exact absurd (hall z (by omega) (by omega)) hgap
  · exact ⟨_, hr, hrx, hyr⟩
  · obtain ⟨z, hz, hz', -⟩ := List.pairwise_iff_getElem.1 h.gaps j i hj hi hji
    rw [Symbol.Ordered.lt_iff] at hz hz'
    omega

/-- The runs make up the set. -/
theorem unionAll_eq (h : IsRuns a runs) : unionAll (runs.map fun r => range r.1 r.2) = a :=
  ext fun x => by simp [h.mem_iff, Symbol.Ordered.le_iff]

end IsRuns

theorem isRuns_pairs : (bounds : List σ) → (h : Ascending bounds) →
    IsRuns ⟨bounds, h⟩ (pairs bounds)
  | [], h => isRuns_nil h
  | [_], h => isRuns_singleton h
  | s :: e :: rest, h => by
    have hse : rank s < rank e := List.rel_of_pairwise_cons h List.mem_cons_self
    obtain ⟨last, hlast, hpairs⟩ := pairs_cons_cons hse rest
    have hrest := isRuns_pairs rest h.of_cons.of_cons
    rw [hpairs]
    exact hrest.cons hse hlast (fun _ => lt_of_mem_tail h.of_cons) fun _ => mem_cons_cons

end

/-! ## Ranges -/

/-- The ranges of the set are runs that ascend and make it up. They are as long as they can be:
there is a gap between each two of them, and each stretch of symbols of the set lies in one. -/
structure RangesExact [LE σ] [LT σ] (a : RangeSet σ) : Prop extends IsRuns a a.ranges where
  ascending : a.ranges.Pairwise fun r r' => r.2 < r'.1
  longest : ∀ x y, x ≤ y → (∀ z, x ≤ z → z ≤ y → z ∈ a) → ∃ r ∈ a.ranges, r.1 ≤ x ∧ y ≤ r.2
  unionAll_eq : unionAll (a.ranges.map fun r => range r.1 r.2) = a

theorem rangesExact [LE σ] [LT σ] [Symbol.Ordered σ] (a : RangeSet σ) : RangesExact a :=
  have hruns : IsRuns a a.ranges := isRuns_pairs a.bounds a.ascending
  { hruns with
    ascending := hruns.ascending
    longest := fun _ _ => hruns.exists_run
    unionAll_eq := hruns.unionAll_eq }

/-- The ranges of sets of characters and of sets of bytes lose nothing. -/
theorem ranges_char_byte :
    (∀ a : RangeSet Char, RangesExact a) ∧ ∀ a : RangeSet UInt8, RangesExact a :=
  ⟨rangesExact, rangesExact⟩

example : (range '\ud7ff' '\ue000' ∪ greaterEqual '\ue002').ranges =
    [('\ud7ff', '\ue000'), ('\ue002', greatest)] := by
  decide +kernel

end Munch.RangeSet
