-- SUMMARY: Sets with the same symbols are equal, and ignoring symbols leaves no bound too many.
import Munch.Proofs.RangeSet.Algebra
import Mathlib.Order.Bounds.Defs

/-! # Canonical sets

The symbols of a set decide about its bounds. What is asked of bounds is
therefore answered about symbols, and sets that are put together in two ways are
equal if the same symbols are in them. No bound can be spared: a set that agrees
with another one at its bounds has at least as many. So a set in which some
symbols are ignored has as few bounds as there can be. -/

namespace Munch.RangeSet

open Munch.Symbol (rank)

variable {σ : Type} [Symbol σ] {a b ignored : RangeSet σ} {x : σ}

/-! ## Equality -/

theorem bounds_eq_iff : a.bounds = b.bounds ↔ ∀ x, x ∈ a ↔ x ∈ b := by
  constructor
  · intro h x
    rw [mem_iff, mem_iff, contains, contains, h]
  · intro h
    rw [ext h]

theorem isFull_iff : a.isFull = true ↔ ∀ x, x ∈ a := by
  constructor
  · intro h x
    rw [isFull] at h
    split at h
    case h_1 b hbounds =>
      have hb : rank b = 0 := by simpa using h
      rw [mem_iff, contains, hbounds, stateAt_cons, if_pos (by omega)]
      rfl
    case h_2 => cases h
  · intro h
    have hfull : a = full := ext fun x => iff_of_true (h x) mem_full
    simp [hfull, full, isFull]

/-- Expressions that stand for the same symbols have one value. -/
theorem Expr.eq_iff_symbols [LE σ] [LT σ] [DecidableLE σ] [Symbol.Ordered σ] {e e' : Expr σ}
    (ha : e.eval? = some a) (hb : e'.eval? = some b) :
    a = b ↔ ∀ x, x ∈ e.symbols ↔ x ∈ e'.symbols := by
  simp only [← mem_of_eval? e ha, ← mem_of_eval? e' hb]
  exact ⟨fun h x => h ▸ Iff.rfl, ext⟩

/-- What is asked of the bounds of sets is answered about their symbols, and sets that are put
together in two ways are equal if both ways stand for the same symbols. -/
structure Canonical (σ : Type) [Symbol σ] [DecidableEq σ] [LE σ] [LT σ] [DecidableLE σ] :
    Prop where
  bounds_eq_iff : ∀ a b : RangeSet σ, a.bounds = b.bounds ↔ ∀ x, x ∈ a ↔ x ∈ b
  isEmpty_iff : ∀ a : RangeSet σ, a.isEmpty = true ↔ ∀ x, ¬ x ∈ a
  isFull_iff : ∀ a : RangeSet σ, a.isFull = true ↔ ∀ x, x ∈ a
  beq_iff : ∀ a b : RangeSet σ, (a == b) = true ↔ ∀ x, x ∈ a ↔ x ∈ b
  isDisjoint_iff : ∀ a b : RangeSet σ, a.isDisjoint b = true ↔ ¬ ∃ x, x ∈ a ∧ x ∈ b
  value_eq_iff : ∀ e e' : Expr σ, ∀ a ∈ e.eval?, ∀ b ∈ e'.eval?,
    a = b ↔ ∀ x, x ∈ e.symbols ↔ x ∈ e'.symbols
  complement_complement : ∀ a : RangeSet σ, a.complement.complement = a
  complement_union : ∀ a b : RangeSet σ, (a ∪ b).complement = a.complement ∩ b.complement
  complement_inter : ∀ a b : RangeSet σ, (a ∩ b).complement = a.complement ∪ b.complement
  inter_union : ∀ a b c : RangeSet σ, a ∩ (b ∪ c) = a ∩ b ∪ a ∩ c
  union_inter : ∀ a b c : RangeSet σ, a ∪ b ∩ c = (a ∪ b) ∩ (a ∪ c)

theorem canonical (σ : Type) [Symbol σ] [DecidableEq σ] [LE σ] [LT σ] [DecidableLE σ]
    [Symbol.Ordered σ] : Canonical σ where
  bounds_eq_iff _ _ := bounds_eq_iff
  isEmpty_iff _ := isEmpty_iff
  isFull_iff _ := isFull_iff
  beq_iff a b := by
    rw [beq_iff_eq]
    exact ⟨fun h x => h ▸ Iff.rfl, ext⟩
  isDisjoint_iff a b := by simp [isDisjoint_iff]
  value_eq_iff _ _ _ ha _ hb := Expr.eq_iff_symbols ha hb
  complement_complement a := ext fun x => by simp
  complement_union a b := ext fun x => by simp
  complement_inter a b := ext fun x => by simp [Decidable.imp_iff_not_or]
  inter_union a b c := ext fun x => by simp [and_or_left]
  union_inter a b c := ext fun x => by simp [or_and_left]

/-- Sets of characters and sets of bytes are canonical. -/
theorem canonical_char_byte : Canonical Char ∧ Canonical UInt8 :=
  ⟨canonical Char, canonical UInt8⟩

/-! ## Few bounds -/

/-- If the state flips at each of the bounds of another list, there are at least as many bounds. -/
theorem length_le_of_stateAt {s : Bool} {as bs : List σ} (ha : Ascending as)
    (h : ∀ x ∈ as, stateAt s bs x = stateAt s as x) : as.length ≤ bs.length := by
  induction as generalizing s bs with
  | nil => exact Nat.zero_le _
  | cons x as ih =>
    obtain ⟨hx, hrest⟩ := List.pairwise_cons.1 ha
    obtain ⟨hfirst, hother⟩ := List.forall_mem_cons.1 h
    rw [stateAt_head ha] at hfirst
    cases bs with
    | nil => exact absurd hfirst (Bool.eq_not_self s).1
    | cons y bs =>
      -- The first bound lies at `x` or below it, since the state at `x` is not the initial one.
      have hy : rank y ≤ rank x := by
        by_contra hlt
        rw [stateAt_cons, if_neg hlt] at hfirst
        exact (Bool.eq_not_self s).1 hfirst
      refine Nat.succ_le_succ (ih hrest (s := !s) fun z hz => ?_)
      have hxz := hx z hz
      have hstate := hother z hz
      rwa [stateAt_cons, stateAt_cons, if_pos (by omega), if_pos (by omega)] at hstate

theorem length_bounds_le_of_agree (h : ∀ x ∈ a.bounds, x ∈ b ↔ x ∈ a) :
    a.bounds.length ≤ b.bounds.length :=
  length_le_of_stateAt a.ascending fun x hx => Bool.eq_iff_iff.2 (h x hx)

/-! ## Ignored symbols -/

theorem mem_dontCare_of_not_mem (h : ¬ x ∈ ignored) : x ∈ a.dontCare ignored ↔ x ∈ a := by
  rw [mem_iff, contains_dontCare_of_not_mem h, mem_iff]

theorem not_mem_of_mem_bounds_dontCare (h : x ∈ (a.dontCare ignored).bounds) : ¬ x ∈ ignored := by
  have hpoint := (flips_sublist _ _).subset h
  rw [List.map_map] at hpoint
  obtain ⟨p, hp, rfl⟩ := List.mem_map.1 hpoint
  exact not_mem_of_kept hp

variable [LE σ] [LT σ] [Symbol.Ordered σ]

theorem mem_dontCare_iff_isGreatest : x ∈ a.dontCare ignored ↔
    ∃ y ∈ a, IsGreatest {y | y ≤ x ∧ ¬ y ∈ ignored} y := by
  simp only [mem_dontCare, IsGreatest, upperBounds, Set.mem_ofPred_eq, Symbol.Ordered.le_iff]
  refine exists_congr fun y => ?_
  constructor
  · rintro ⟨hle, hy, hnot, hall⟩
    refine ⟨hy, ⟨hle, hnot⟩, fun z hz => ?_⟩
    by_contra hlt
    exact hz.2 (hall z (by omega) hz.1)
  · rintro ⟨hy, ⟨hle, hnot⟩, hgreatest⟩
    refine ⟨hle, hy, hnot, fun z hlt hz => ?_⟩
    by_contra hzi
    have := hgreatest ⟨hz, hzi⟩
    omega

/-- The set `a` with its ignored symbols filled in: each symbol counts as the last one up to it that
is not ignored, and is outside if there is none. The result agrees with `a` on all other symbols and
has no bounds at ignored ones, and no set that agrees with `a` in this way has fewer bounds. -/
structure IsExtension (a ignored c : RangeSet σ) : Prop where
  ascending : c.bounds.Pairwise (· < ·)
  mem_iff : ∀ x, x ∈ c ↔ ∃ y ∈ a, IsGreatest {y | y ≤ x ∧ ¬ y ∈ ignored} y
  agrees : ∀ x, ¬ x ∈ ignored → (x ∈ c ↔ x ∈ a)
  bounds_outside : ∀ x ∈ c.bounds, ¬ x ∈ ignored
  fewest : ∀ other : RangeSet σ, (∀ x, ¬ x ∈ ignored → (x ∈ other ↔ x ∈ a)) →
    c.bounds.length ≤ other.bounds.length

/-- Ignoring symbols of a set fills them in, and does so with as few bounds as possible. -/
theorem dontCare_isExtension (a ignored : RangeSet σ) :
    IsExtension a ignored (a.dontCare ignored) where
  ascending := (a.dontCare ignored).ascending.imp Symbol.Ordered.lt_iff.2
  mem_iff _ := mem_dontCare_iff_isGreatest
  agrees _ := mem_dontCare_of_not_mem
  bounds_outside _ := not_mem_of_mem_bounds_dontCare
  fewest other hagrees := length_bounds_le_of_agree fun x hx => by
    have hnot := not_mem_of_mem_bounds_dontCare hx
    rw [hagrees x hnot, mem_dontCare_of_not_mem hnot]

/-- Ignored symbols at the start of the domain take away one run, and ignored ones around the gap of
the surrogates move the end of the other. -/
theorem ignoredSurrogates_isExtension :
    IsExtension (only 'a' ∪ range 'c' '\ud7ff') (lessThan 'c' ∪ range '\ud7f0' '\ue00f')
      (range 'c' '\ue00f') := by
  have hvalue : (only 'a' ∪ range 'c' '\ud7ff').dontCare
      (lessThan 'c' ∪ range '\ud7f0' '\ue00f') = range 'c' '\ue00f' := by
    decide +kernel
  rw [← hvalue]
  exact dontCare_isExtension _ _

end Munch.RangeSet
