-- SUMMARY: Finite sets of states, and the search for all states that can be reached.

/-!
# Sets of states

A set of states is the ascending list of its members, so equal sets are equal
as data. `reach` closes a set under a successor function, level by level.
-/

namespace Munch

structure StateSet where
  ids : List Nat
  ascending : ids.Pairwise (· < ·)
deriving DecidableEq

namespace StateSet

instance : Membership Nat StateSet := ⟨fun s i => i ∈ s.ids⟩

instance (i : Nat) (s : StateSet) : Decidable (i ∈ s) := inferInstanceAs (Decidable (i ∈ s.ids))

theorem eq_of_ids_eq {s t : StateSet} (h : s.ids = t.ids) : s = t := by
  cases s
  cases t
  cases h
  rfl

def empty : StateSet := ⟨[], .nil⟩

instance : EmptyCollection StateSet := ⟨empty⟩

instance : Inhabited StateSet := ⟨empty⟩

instance : Hashable StateSet := ⟨fun s => hash s.ids⟩

def isEmpty (s : StateSet) : Bool := s.ids.isEmpty

/-! ## Building -/

def insertId (i : Nat) : List Nat → List Nat
  | [] => [i]
  | j :: rest => if i < j then i :: j :: rest else if j < i then j :: insertId i rest else j :: rest

theorem mem_insertId {i x : Nat} {ids : List Nat} : x ∈ insertId i ids ↔ x = i ∨ x ∈ ids := by
  induction ids with
  | nil => simp [insertId]
  | cons j rest ih =>
    simp only [insertId]
    split
    · simp
    · split
      · simp only [List.mem_cons, ih]
        constructor
        · rintro (h | h | h) <;> simp [h]
        · rintro (h | h | h) <;> simp [h]
      · have : i = j := by omega
        simp [this]

theorem ascending_insertId {i : Nat} {ids : List Nat} (h : ids.Pairwise (· < ·)) :
    (insertId i ids).Pairwise (· < ·) := by
  induction ids with
  | nil => exact List.pairwise_singleton ..
  | cons j rest ih =>
    have hj := List.pairwise_cons.1 h
    simp only [insertId]
    split
    case isTrue hij =>
      refine List.pairwise_cons.2 ⟨fun x hx => ?_, h⟩
      rcases List.mem_cons.1 hx with rfl | hx
      · exact hij
      · exact Nat.lt_trans hij (hj.1 x hx)
    case isFalse =>
      split
      case isTrue hji =>
        refine List.pairwise_cons.2 ⟨fun x hx => ?_, ih hj.2⟩
        rcases mem_insertId.1 hx with rfl | hx
        · exact hji
        · exact hj.1 x hx
      case isFalse => exact h

instance : Insert Nat StateSet := ⟨fun i s => ⟨insertId i s.ids, ascending_insertId s.ascending⟩⟩

instance : Singleton Nat StateSet := ⟨fun i => insert i empty⟩

def ofList (ids : List Nat) : StateSet := ids.foldr insert empty

theorem insertId_of_lt {i : Nat} {ids : List Nat} (h : ∀ j ∈ ids, i < j) :
    insertId i ids = i :: ids := by
  cases ids with
  | nil => rfl
  | cons j rest => exact if_pos (h j List.mem_cons_self)

/-- A set is made again from its members. -/
theorem ofList_ids (s : StateSet) : ofList s.ids = s := by
  obtain ⟨ids, hasc⟩ := s
  refine eq_of_ids_eq ?_
  induction ids with
  | nil => rfl
  | cons i rest ih =>
    have hi := List.pairwise_cons.1 hasc
    show insertId i (ofList rest).ids = i :: rest
    rw [ih hi.2]
    exact insertId_of_lt hi.1

instance : Union StateSet := ⟨fun s t => t.ids.foldr insert s⟩

instance : SDiff StateSet := ⟨fun s t =>
  ⟨s.ids.filter (· ∉ t), s.ascending.sublist List.filter_sublist⟩⟩

@[simp] theorem mem_insert {i x : Nat} {s : StateSet} :
    x ∈ (insert i s : StateSet) ↔ x = i ∨ x ∈ s :=
  mem_insertId

@[simp] theorem not_mem_empty {x : Nat} : ¬ x ∈ (empty : StateSet) := List.not_mem_nil

@[simp] theorem mem_singleton {i x : Nat} : x ∈ ({i} : StateSet) ↔ x = i :=
  mem_insert.trans (or_iff_left not_mem_empty)

theorem mem_foldr_insert {x : Nat} {s : StateSet} {ids : List Nat} :
    x ∈ ids.foldr insert s ↔ x ∈ ids ∨ x ∈ s := by
  induction ids with
  | nil => simp
  | cons i rest ih => simp [ih, or_assoc]

@[simp] theorem mem_ofList {x : Nat} {ids : List Nat} : x ∈ ofList ids ↔ x ∈ ids := by
  simp [ofList, mem_foldr_insert]

@[simp] theorem mem_union {x : Nat} {s t : StateSet} : x ∈ s ∪ t ↔ x ∈ s ∨ x ∈ t :=
  mem_foldr_insert.trans or_comm

@[simp] theorem mem_sdiff {x : Nat} {s t : StateSet} : x ∈ s \ t ↔ x ∈ s ∧ ¬ x ∈ t := by
  show x ∈ s.ids.filter (· ∉ t) ↔ _
  simp only [List.mem_filter, decide_eq_true_eq]
  exact Iff.rfl

/-! ## Missing states -/

/-- The states that are not in the set. -/
def missing (size : Nat) (s : StateSet) : List Nat := (List.range size).filter (· ∉ s)

theorem length_missing_le (size : Nat) (s : StateSet) : (missing size s).length ≤ size := by
  simpa [missing] using List.length_filter_le (fun i => !decide (i ∈ s)) (List.range size)

theorem length_missing_lt {size i : Nat} {seen fresh : StateSet} (hi : i < size)
    (hfresh : i ∈ fresh) (hseen : ¬ i ∈ seen) :
    (missing size (seen ∪ fresh)).length < (missing size seen).length := by
  have hfilter : missing size (seen ∪ fresh) = (missing size seen).filter (· ∉ fresh) := by
    simp [missing, List.filter_filter, Bool.and_comm]
  rw [hfilter]
  refine List.length_filter_lt_length_iff_exists.2 ⟨i, ?_, by simpa using hfresh⟩
  exact List.mem_filter.2 ⟨List.mem_range.2 hi, by simpa using hseen⟩

/-! ## Search -/

/-- Adds the successors of the newest states, those they lead to, and so on for `levels` levels or
until nothing new is found. -/
def reach (next : Nat → List Nat) : Nat → StateSet → StateSet → StateSet
  | 0, seen, _ => seen
  | levels + 1, seen, newest =>
    let fresh := ofList (newest.ids.flatMap next) \ seen
    if fresh.isEmpty then seen else reach next levels (seen ∪ fresh) fresh

end StateSet

end Munch
