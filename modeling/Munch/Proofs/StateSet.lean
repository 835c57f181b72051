-- SUMMARY: Sets of states are equal if their members are, and the search finds what can be reached.
import Munch.StateSet
import Mathlib.Data.List.Sort

/-! # Sets of states

The search of a set for what it leads to has as many levels as there are
states. Every level but the last finds a new one, so it never ends too early. -/

namespace Munch.StateSet

variable {s t seen newest : StateSet} {next : Nat → List Nat} {size : Nat}

/-! ## Members -/

theorem ext (h : ∀ i, i ∈ s ↔ i ∈ t) : s = t :=
  eq_of_ids_eq (s.ascending.eq_of_mem_iff t.ascending h)

theorem isEmpty_iff : s.isEmpty = true ↔ ∀ i, ¬ i ∈ s := by
  rw [isEmpty, List.isEmpty_iff, List.eq_nil_iff_forall_not_mem]
  rfl

theorem isEmpty_iff_eq : s.isEmpty = true ↔ s = ∅ := by
  rw [isEmpty, List.isEmpty_iff]
  constructor
  · intro h
    exact eq_of_ids_eq h
  · rintro rfl
    rfl

theorem length_insertId {i : Nat} {ids : List Nat} (h : ¬ i ∈ ids) :
    (insertId i ids).length = ids.length + 1 := by
  induction ids with
  | nil => rfl
  | cons j rest ih =>
    obtain ⟨hij, hrest⟩ := not_or.1 (mt List.mem_cons.2 h)
    rw [insertId]
    split
    case isTrue => rfl
    case isFalse =>
      rw [if_pos (by omega), List.length_cons, ih hrest, List.length_cons]

theorem length_union_singleton {i : Nat} (h : ¬ i ∈ s) :
    (s ∪ {i}).ids.length = s.ids.length + 1 :=
  length_insertId h

/-- Sets with the same members of a kind have the same first one. -/
theorem find?_ids_eq {p : Nat → Bool} (h : ∀ i, p i = true → (i ∈ s ↔ i ∈ t)) :
    s.ids.find? p = t.ids.find? p := by
  have hfilter : s.ids.filter p = t.ids.filter p := by
    refine (s.ascending.filter p).eq_of_mem_iff (t.ascending.filter p) fun i => ?_
    rw [List.mem_filter, List.mem_filter]
    exact and_congr_left (h i)
  rw [← List.head?_filter, hfilter, List.head?_filter]

/-! ## Search -/

/-- A level either finds nothing new, or it goes on with what it found. -/
theorem mem_reach_succ {levels : Nat} (P : StateSet → Prop)
    (hdone : (∀ i ∈ newest, ∀ j ∈ next i, j ∈ seen) → P seen)
    (hmore : ∀ fresh, (∀ j, j ∈ fresh ↔ (∃ i ∈ newest, j ∈ next i) ∧ ¬ j ∈ seen) →
      (∃ j, j ∈ fresh) → P (reach next levels (seen ∪ fresh) fresh)) :
    P (reach next (levels + 1) seen newest) := by
  have hmem : ∀ j, j ∈ ofList (newest.ids.flatMap next) \ seen ↔
      (∃ i ∈ newest, j ∈ next i) ∧ ¬ j ∈ seen := by
    intro j
    rw [mem_sdiff, mem_ofList, List.mem_flatMap]
    rfl
  rw [reach]
  split
  case isTrue hempty =>
    refine hdone fun i hi j hj => ?_
    by_contra hseen
    exact isEmpty_iff.1 hempty j ((hmem j).2 ⟨⟨i, hi, hj⟩, hseen⟩)
  case isFalse hempty =>
    refine hmore _ hmem ?_
    by_contra hnone
    exact hempty (isEmpty_iff.2 (not_exists.1 hnone))

/-- Whatever holds of the given states and is passed on to successors holds of all that is found. -/
theorem reach_induction {P : Nat → Prop} (hnext : ∀ i, P i → ∀ j ∈ next i, P j) {levels : Nat}
    (hseen : ∀ i ∈ seen, P i) (hnewest : ∀ i ∈ newest, P i) :
    ∀ i ∈ reach next levels seen newest, P i := by
  induction levels generalizing seen newest with
  | zero => exact hseen
  | succ levels ih =>
    refine mem_reach_succ (fun r => ∀ i ∈ r, P i) (fun _ => hseen) ?_
    intro fresh hmem _
    have hfresh : ∀ i ∈ fresh, P i := by
      intro j hj
      obtain ⟨⟨i, hi, hij⟩, -⟩ := (hmem j).1 hj
      exact hnext i (hnewest i hi) j hij
    refine ih ?_ hfresh
    intro i hi
    rcases mem_union.1 hi with hi | hi
    · exact hseen i hi
    · exact hfresh i hi

theorem mem_reach_of_mem {levels i : Nat} (hi : i ∈ seen) : i ∈ reach next levels seen newest := by
  induction levels generalizing seen newest with
  | zero => exact hi
  | succ levels ih =>
    refine mem_reach_succ (fun r => i ∈ r) (fun _ => hi) ?_
    intro fresh _ _
    exact ih (mem_union.2 (.inl hi))

/-- With a level for each missing state, the result is closed. -/
theorem reach_closed (hnext : ∀ i, ∀ j ∈ next i, j < size) {levels : Nat}
    (hlevels : (missing size seen).length ≤ levels)
    (hseen : ∀ i ∈ seen, i ∈ newest ∨ ∀ j ∈ next i, j ∈ seen) :
    ∀ i ∈ reach next levels seen newest, ∀ j ∈ next i, j ∈ reach next levels seen newest := by
  induction levels generalizing seen newest with
  | zero =>
    intro i _ j hj
    have hnone : missing size seen = [] := List.length_eq_zero_iff.1 (Nat.le_zero.1 hlevels)
    show j ∈ seen
    by_contra hnot
    exact List.filter_eq_nil_iff.1 hnone j (List.mem_range.2 (hnext i j hj)) (by simpa using hnot)
  | succ levels ih =>
    refine mem_reach_succ (fun r => ∀ i ∈ r, ∀ j ∈ next i, j ∈ r) ?_ ?_
    · intro hclosed i hi
      rcases hseen i hi with hnew | hold
      · exact hclosed i hnew
      · exact hold
    · intro fresh hmem ⟨j, hj⟩
      obtain ⟨⟨i, -, hij⟩, hfresh⟩ := (hmem j).1 hj
      refine ih ?_ ?_
      · have := length_missing_lt (hnext i j hij) hj hfresh
        omega
      · intro i hi
        rcases mem_union.1 hi with hi | hi
        · refine .inr fun j hj => mem_union.2 ?_
          by_cases hjs : j ∈ seen
          · exact .inl hjs
          · rcases hseen i hi with hnew | hold
            · exact .inr ((hmem j).2 ⟨⟨i, hnew, hj⟩, hjs⟩)
            · exact .inl (hold j hj)
        · exact .inl hi

end Munch.StateSet
