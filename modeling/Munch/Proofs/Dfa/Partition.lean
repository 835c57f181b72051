-- SUMMARY: First-fit grouping by an equivalence lists its classes; a finer one has more of them.
import Munch.Dfa.Minimize
import Mathlib.Data.List.Nodup
import Mathlib.Logic.Basic
import Mathlib.Order.Basic

/-! # Partitions

Placing states one by one into the first group whose first member is related to
them gives the classes of the relation, if it is an equivalence: the groups by
their smallest members, which *lead* them, and the members in ascending order.
So partitions are equal as data when their relations are, and a strictly finer
relation has strictly more groups. The groups of a coarser relation come in the
order of their first groups. -/

namespace Munch.Dfa.Partition

open Classical

variable {ε : Type} {r r' : Nat → Nat → Prop} {count : Nat}

/-! ## Classes -/

/-- The numbers below `count` to which no smaller one is related. -/
noncomputable def leaders (r : Nat → Nat → Prop) (count : Nat) : List Nat :=
  (List.range count).filter fun i => ∀ j < i, ¬ r j i

noncomputable def groupOf (r : Nat → Nat → Prop) (count first : Nat) : Group :=
  ⟨first, (List.range count).filter fun i => first < i ∧ r first i⟩

noncomputable def classes (r : Nat → Nat → Prop) (count : Nat) : Partition :=
  (leaders r count).map (groupOf r count)

theorem mem_leaders {i : Nat} : i ∈ leaders r count ↔ i < count ∧ ∀ j < i, ¬ r j i := by
  simp [leaders]

theorem leaders_ascending (r : Nat → Nat → Prop) (count : Nat) :
    (leaders r count).Pairwise (· < ·) :=
  List.pairwise_lt_range.filter _

theorem nodup_leaders (r : Nat → Nat → Prop) (count : Nat) : (leaders r count).Nodup :=
  List.nodup_range.filter _

theorem exists_leader (hr : Equivalence r) {i : Nat} (hi : i < count) :
    ∃ l ∈ leaders r count, r l i := by
  induction i using Nat.strongRecOn with
  | ind i ih =>
    by_cases h : ∃ j < i, r j i
    · obtain ⟨j, hj, hji⟩ := h
      obtain ⟨l, hl, hlj⟩ := ih j hj (Nat.lt_trans hj hi)
      exact ⟨l, hl, hr.trans hlj hji⟩
    · exact ⟨i, mem_leaders.2 ⟨hi, fun j hj hji => h ⟨j, hj, hji⟩⟩, hr.refl i⟩

theorem leader_unique (hr : Equivalence r) {l l' : Nat} (hl : l ∈ leaders r count)
    (hl' : l' ∈ leaders r count) (h : r l l') : l = l' := by
  rcases Nat.lt_trichotomy l l' with hlt | heq | hlt
  · exact absurd h ((mem_leaders.1 hl').2 l hlt)
  · exact heq
  · exact absurd (hr.symm h) ((mem_leaders.1 hl).2 l' hlt)

theorem leaders_succ (r : Nat → Nat → Prop) (count : Nat) :
    leaders r (count + 1) =
      leaders r count ++ if ∀ j < count, ¬ r j count then [count] else [] := by
  rw [leaders, List.range_succ, List.filter_append]
  congr 1
  rw [List.filter_cons, List.filter_nil]
  simp only [decide_eq_true_eq]

theorem groupOf_succ {first : Nat} (h : first < count) :
    groupOf r (count + 1) first =
      ⟨first, (groupOf r count first).others ++ if r first count then [count] else []⟩ := by
  rw [groupOf, groupOf, List.range_succ, List.filter_append]
  congr 2
  by_cases hr : r first count <;> simp [hr, h]

theorem mem_others_groupOf {l i : Nat} :
    i ∈ (groupOf r count l).others ↔ i < count ∧ l < i ∧ r l i := by
  simp [groupOf]

theorem others_groupOf_ascending (r : Nat → Nat → Prop) (count l : Nat) :
    (groupOf r count l).others.Pairwise (· < ·) :=
  List.pairwise_lt_range.filter _

theorem mem_members_groupOf (hr : Equivalence r) {l i : Nat} (hl : l ∈ leaders r count) :
    i ∈ (groupOf r count l).members ↔ i < count ∧ r l i := by
  obtain ⟨hlt, hlead⟩ := mem_leaders.1 hl
  rw [Group.members, List.mem_cons, mem_others_groupOf]
  show i = l ∨ _ ↔ _
  constructor
  · rintro (rfl | ⟨hi, -, h⟩)
    · exact ⟨hlt, hr.refl i⟩
    · exact ⟨hi, h⟩
  · rintro ⟨hi, h⟩
    rcases Nat.lt_trichotomy i l with hil | rfl | hli
    · exact absurd (hr.symm h) (hlead i hil)
    · exact .inl rfl
    · exact .inr ⟨hi, hli, h⟩

/-! ## One number more -/

theorem groupOf_succ_of_not {first : Nat} (h : first < count) (hnot : ¬ r first count) :
    groupOf r (count + 1) first = groupOf r count first := by
  rw [groupOf_succ h, if_neg hnot, List.append_nil]
  rfl

/-- A number that no smaller one is related to is a class of its own. -/
theorem classes_succ_of_alone (h : ∀ j < count, ¬ r j count) :
    classes r (count + 1) = classes r count ++ [⟨count, []⟩] := by
  have hold : (leaders r count).map (groupOf r (count + 1)) = classes r count := by
    refine List.map_congr_left fun l hl => ?_
    have hlt := (mem_leaders.1 hl).1
    exact groupOf_succ_of_not hlt (h l hlt)
  have hnone : (List.range (count + 1)).filter (fun i => decide (count < i ∧ r count i)) = [] := by
    rw [List.filter_eq_nil_iff]
    intro i hi
    have := List.mem_range.1 hi
    simp only [decide_eq_true_eq]
    omega
  rw [classes, leaders_succ, if_pos h, List.map_append, hold, List.map_singleton, groupOf, hnone]

/-- A number that a leader is related to joins its group, and the other groups stay. -/
theorem classes_succ_of_leader (hr : Equivalence r) {l : Nat} (hl : l ∈ leaders r count)
    (hlc : r l count) :
    ∃ before after, classes r count = before ++ groupOf r count l :: after ∧
      classes r (count + 1) = before ++ ⟨l, (groupOf r count l).others ++ [count]⟩ :: after ∧
      ∀ g ∈ before, g.first < count ∧ ¬ r g.first count := by
  have hlt := (mem_leaders.1 hl).1
  have hnot : ∀ l' ∈ leaders r count, l' ≠ l → ¬ r l' count := by
    intro l' hl' hne hl'c
    exact hne (leader_unique hr hl' hl (hr.trans hl'c (hr.symm hlc)))
  obtain ⟨before, after, hsplit⟩ := List.append_of_mem hl
  have hnodup := nodup_leaders r count
  rw [hsplit, List.nodup_append] at hnodup
  obtain ⟨-, hafter, hbefore⟩ := hnodup
  have hb : ∀ l' ∈ before, l' < count ∧ ¬ r l' count := by
    intro l' hl'
    have hmem : l' ∈ leaders r count := hsplit ▸ List.mem_append_left _ hl'
    exact ⟨(mem_leaders.1 hmem).1, hnot l' hmem (hbefore l' hl' l List.mem_cons_self)⟩
  have ha : ∀ l' ∈ after, l' < count ∧ ¬ r l' count := by
    intro l' hl'
    have hmem : l' ∈ leaders r count :=
      hsplit ▸ List.mem_append_right _ (List.mem_cons_of_mem _ hl')
    refine ⟨(mem_leaders.1 hmem).1, hnot l' hmem ?_⟩
    rintro rfl
    exact (List.nodup_cons.1 hafter).1 hl'
  have hled : ¬ ∀ j < count, ¬ r j count := fun hall => hall l hlt hlc
  refine ⟨before.map (groupOf r count), after.map (groupOf r count), ?_, ?_, ?_⟩
  · rw [classes, hsplit, List.map_append, List.map_cons]
  · rw [classes, leaders_succ, if_neg hled, List.append_nil, hsplit, List.map_append,
      List.map_cons, groupOf_succ hlt, if_pos hlc,
      List.map_congr_left fun l' hl' => groupOf_succ_of_not (hb l' hl').1 (hb l' hl').2,
      List.map_congr_left fun l' hl' => groupOf_succ_of_not (ha l' hl').1 (ha l' hl').2]
  · intro g hg
    obtain ⟨l', hl', rfl⟩ := List.mem_map.1 hg
    exact hb l' hl'

/-! ## First fit -/

theorem place_of_apart {apart : Nat → Nat → Except ε Bool} {id : Nat} {p : Partition}
    (h : ∀ g ∈ p, apart g.first id = .ok true) : place apart id p = .ok (p ++ [⟨id, []⟩]) := by
  induction p with
  | nil => rfl
  | cons g rest ih =>
    obtain ⟨hg, hrest⟩ := List.forall_mem_cons.1 h
    rw [place, hg, ih hrest]
    rfl

theorem place_of_fit {apart : Nat → Nat → Except ε Bool} {id : Nat} {g : Group}
    {before after : Partition} (hbefore : ∀ g ∈ before, apart g.first id = .ok true)
    (hg : apart g.first id = .ok false) :
    place apart id (before ++ g :: after) =
      .ok (before ++ ⟨g.first, g.others ++ [id]⟩ :: after) := by
  induction before with
  | nil =>
    rw [List.nil_append, place, hg]
    rfl
  | cons g' rest ih =>
    obtain ⟨hg', hrest⟩ := List.forall_mem_cons.1 hbefore
    rw [List.cons_append, place, hg', ih hrest]
    rfl

theorem place_classes (hr : Equivalence r) {apart : Nat → Nat → Except ε Bool}
    (hapart : ∀ a < count, apart a count = .ok (decide (¬ r a count))) :
    place apart count (classes r count) = .ok (classes r (count + 1)) := by
  by_cases h : ∃ l ∈ leaders r count, r l count
  · obtain ⟨l, hl, hlc⟩ := h
    obtain ⟨before, after, hold, hnew, hbefore⟩ := classes_succ_of_leader hr hl hlc
    rw [hold, hnew]
    refine place_of_fit ?_ ?_
    · intro g hg
      obtain ⟨hlt, hnot⟩ := hbefore g hg
      rw [hapart _ hlt]
      simp [hnot]
    · show apart l count = _
      rw [hapart l (mem_leaders.1 hl).1]
      simp [hlc]
  · have hleads : ∀ j < count, ¬ r j count := by
      intro j hj hjc
      obtain ⟨l, hl, hlj⟩ := exists_leader hr hj
      exact h ⟨l, hl, hr.trans hlj hjc⟩
    rw [classes_succ_of_alone hleads]
    refine place_of_apart fun g hg => ?_
    obtain ⟨l, hl, rfl⟩ := List.mem_map.1 hg
    have hlt := (mem_leaders.1 hl).1
    show apart l count = _
    rw [hapart l hlt]
    simp [hleads l hlt]

/-- Grouping by a test that decides an equivalence lists its classes. -/
theorem ofTest_eq_classes (hr : Equivalence r) {apart : Nat → Nat → Except ε Bool}
    (hapart : ∀ a < count, ∀ b < count, apart a b = .ok (decide (¬ r a b))) :
    ofTest count apart = .ok (classes r count) := by
  suffices h : ∀ k ≤ count, (List.range k).foldlM (fun p id => place apart id p) [] =
      Except.ok (classes r k) from h count (Nat.le_refl count)
  intro k
  induction k with
  | zero => intro _; rfl
  | succ k ih =>
    intro hk
    rw [List.range_succ, List.foldlM_append, ih (by omega)]
    show (place apart k (classes r k) >>= fun p => pure p) = _
    rw [place_classes hr fun a ha => hapart a (by omega) k (by omega)]
    rfl

/-! ## Finer relations -/

theorem rel_of_classes_eq (hr : Equivalence r) (hr' : Equivalence r')
    (h : classes r count = classes r' count) {a b : Nat} (ha : a < count) (hb : b < count)
    (hab : r a b) : r' a b := by
  obtain ⟨l, hl, hla⟩ := exists_leader hr ha
  have hmem : groupOf r count l ∈ classes r' count := h ▸ List.mem_map_of_mem hl
  obtain ⟨l', hl', hgroup⟩ := List.mem_map.1 hmem
  have hin : ∀ i < count, r l i → r' l' i := by
    intro i hi hli
    have : i ∈ (groupOf r count l).members := (mem_members_groupOf hr hl).2 ⟨hi, hli⟩
    rw [← hgroup] at this
    exact ((mem_members_groupOf hr' hl').1 this).2
  exact hr'.trans (hr'.symm (hin a ha hla)) (hin b hb (hr.trans hla hab))

theorem classes_congr (h : ∀ a < count, ∀ b < count, r a b ↔ r' a b) :
    classes r count = classes r' count := by
  have hleaders : leaders r count = leaders r' count := by
    refine List.filter_congr fun i hi => ?_
    have hi := List.mem_range.1 hi
    rw [decide_eq_decide]
    refine forall₂_congr fun j hj => ?_
    rw [h j (by omega) i hi]
  rw [classes, classes, hleaders]
  refine List.map_congr_left fun l hl => ?_
  have hl := (mem_leaders.1 hl).1
  rw [groupOf, groupOf]
  congr 1
  refine List.filter_congr fun i hi => ?_
  rw [decide_eq_decide, h l hl i (List.mem_range.1 hi)]

theorem length_classes_le (r : Nat → Nat → Prop) (count : Nat) :
    (classes r count).length ≤ count := by
  rw [classes, List.length_map]
  exact (List.length_filter_le _ _).trans_eq List.length_range

theorem length_classes_pos (hr : Equivalence r) (h : 0 < count) :
    0 < (classes r count).length := by
  obtain ⟨l, hl, -⟩ := exists_leader hr h
  rw [classes, List.length_map]
  exact List.length_pos_of_mem hl

/-- A finer relation with other classes has more of them. -/
theorem length_classes_lt (hr : Equivalence r) (hr' : Equivalence r')
    (hfiner : ∀ a b, r' a b → r a b) (hne : classes r' count ≠ classes r count) :
    (classes r count).length < (classes r' count).length := by
  have hsub : (leaders r count).Sublist (leaders r' count) := by
    refine List.monotone_filter_right _ fun i hi => ?_
    simp only [decide_eq_true_eq] at hi ⊢
    exact fun j hj hji => hi j hj (hfiner j i hji)
  rw [classes, classes, List.length_map, List.length_map]
  refine Nat.lt_of_le_of_ne hsub.length_le fun hlen => hne ?_
  have hleaders := hsub.eq_of_length hlen
  refine classes_congr fun a ha b hb => ⟨hfiner a b, fun hab => ?_⟩
  obtain ⟨l, hl, hla⟩ := exists_leader hr' ha
  obtain ⟨l', hl', hlb⟩ := exists_leader hr' hb
  have hll' : r l l' :=
    hr.trans (hfiner l a hla) (hr.trans hab (hr.symm (hfiner l' b hlb)))
  have := leader_unique hr (hleaders ▸ hl) (hleaders ▸ hl') hll'
  subst this
  exact hr'.trans (hr'.symm hla) hlb

/-! ## Places of groups -/

/-- The place of the group that a number is in. -/
noncomputable def index (r : Nat → Nat → Prop) (count id : Nat) : Nat :=
  (classes r count).findIdx (·.members.contains id)

theorem table_classes {id : Nat} (h : id < count) :
    ((classes r count).table count)[id]? = some (index r count id) := by
  simp [table, index, h]

theorem index_spec (hr : Equivalence r) {id : Nat} (h : id < count) :
    ∃ l, (leaders r count)[index r count id]? = some l ∧ r l id := by
  obtain ⟨l, hl, hlid⟩ := exists_leader hr h
  have hlt : index r count id < (classes r count).length := by
    refine List.findIdx_lt_length_of_exists ⟨_, List.mem_map_of_mem hl, ?_⟩
    exact List.contains_iff_mem.2 ((mem_members_groupOf hr hl).2 ⟨h, hlid⟩)
  obtain ⟨g, hg, hmem⟩ : ∃ g, (classes r count)[index r count id]? = some g ∧ id ∈ g.members :=
    ⟨_, List.getElem?_eq_getElem hlt, List.contains_iff_mem.1 (List.findIdx_getElem (w := hlt))⟩
  rw [classes, List.getElem?_map] at hg
  obtain ⟨l', hl', rfl⟩ := Option.map_eq_some_iff.1 hg
  have hlead : l' ∈ leaders r count := List.mem_of_getElem? hl'
  exact ⟨l', hl', ((mem_members_groupOf hr hlead).1 hmem).2⟩

theorem index_lt (hr : Equivalence r) {id : Nat} (h : id < count) :
    index r count id < (classes r count).length := by
  obtain ⟨l, hl, -⟩ := index_spec hr h
  rw [classes, List.length_map]
  exact (List.getElem?_eq_some_iff.1 hl).1

theorem index_eq_iff (hr : Equivalence r) {a b : Nat} (ha : a < count) (hb : b < count) :
    index r count a = index r count b ↔ r a b := by
  obtain ⟨l, hl, hla⟩ := index_spec hr ha
  obtain ⟨l', hl', hlb⟩ := index_spec hr hb
  constructor
  · intro h
    rw [h, hl'] at hl
    cases hl
    exact hr.trans (hr.symm hla) hlb
  · intro hab
    have := leader_unique hr (List.mem_of_getElem? hl) (List.mem_of_getElem? hl')
      (hr.trans hla (hr.trans hab (hr.symm hlb)))
    subst this
    have hlt := (List.getElem?_eq_some_iff.1 hl).1
    exact (List.getElem?_inj hlt (nodup_leaders r count)).1 (hl.trans hl'.symm)

/-- The first group is that of 0. -/
theorem index_zero (h : 0 < count) : index r count 0 = 0 := by
  obtain ⟨k, rfl⟩ : ∃ k, count = k + 1 := ⟨count - 1, by omega⟩
  obtain ⟨rest, hrest⟩ : ∃ rest, leaders r (k + 1) = 0 :: rest := by
    rw [leaders, List.range_succ_eq_map]
    exact ⟨_, List.filter_cons_of_pos (by simp)⟩
  have hmem : (groupOf r (k + 1) 0).members.contains 0 = true :=
    List.contains_iff_mem.2 List.mem_cons_self
  rw [index, classes, hrest, List.map_cons, List.findIdx_cons, hmem]
  rfl

theorem getElem?_index (hr : Equivalence r) {l : Nat} (hl : l ∈ leaders r count) :
    (leaders r count)[index r count l]? = some l := by
  obtain ⟨l', hl', hrel⟩ := index_spec hr (mem_leaders.1 hl).1
  rwa [leader_unique hr (List.mem_of_getElem? hl') hl hrel] at hl'

theorem index_of_leader (hr : Equivalence r) {i l : Nat} (h : (leaders r count)[i]? = some l) :
    index r count l = i := by
  have hat := getElem?_index hr (List.mem_of_getElem? h)
  have hlt := (List.getElem?_eq_some_iff.1 hat).1
  exact (List.getElem?_inj hlt (nodup_leaders r count)).1 (hat.trans h.symm)

/-- The group at a place, by its leader. -/
theorem getElem?_classes (hr : Equivalence r) {i : Nat} {g : Group}
    (h : (classes r count)[i]? = some g) : g.first < count ∧ index r count g.first = i := by
  rw [classes, List.getElem?_map] at h
  obtain ⟨l, hl, rfl⟩ := Option.map_eq_some_iff.1 h
  exact ⟨(mem_leaders.1 (List.mem_of_getElem? hl)).1, index_of_leader hr hl⟩

/-! ## Groups of one -/

section Alone

variable (halone : ∀ a < count, ∀ b < count, r a b → a = b)

include halone

theorem leaders_of_alone : leaders r count = List.range count := by
  refine List.filter_eq_self.2 fun i hi => ?_
  have hi := List.mem_range.1 hi
  simp only [decide_eq_true_eq]
  intro j hj hji
  exact Nat.ne_of_lt hj (halone j (Nat.lt_trans hj hi) i hi hji)

theorem length_classes_of_alone : (classes r count).length = count := by
  rw [classes, List.length_map, leaders_of_alone halone, List.length_range]

theorem index_of_alone (hr : Equivalence r) {i : Nat} (hi : i < count) : index r count i = i := by
  refine index_of_leader hr ?_
  rw [leaders_of_alone halone, List.getElem?_range hi]

end Alone

/-! ## Groups of groups

A relation `s` on the places of groups gives one on numbers, which is coarser than `r`. Its groups
come in the order in which those of `s` do. -/

section Coarser

variable {s : Nat → Nat → Prop}

theorem exists_leader_at {i : Nat} (h : i < (classes r count).length) :
    ∃ l, (leaders r count)[i]? = some l := by
  rw [classes, List.length_map] at h
  exact ⟨_, List.getElem?_eq_getElem h⟩

theorem lt_of_leaders {i j l l' : Nat} (hl : (leaders r count)[i]? = some l)
    (hl' : (leaders r count)[j]? = some l') (hij : i < j) : l < l' := by
  obtain ⟨hi, rfl⟩ := List.getElem?_eq_some_iff.1 hl
  obtain ⟨hj, rfl⟩ := List.getElem?_eq_some_iff.1 hl'
  exact List.pairwise_iff_getElem.1 (leaders_ascending r count) i j hi hj hij

theorem map_index_leaders (hr : Equivalence r) :
    (leaders r count).map (index r count) = List.range (classes r count).length := by
  refine List.ext_getElem? fun i => ?_
  rw [List.getElem?_map]
  by_cases hi : i < (classes r count).length
  · obtain ⟨l, hl⟩ := exists_leader_at hi
    rw [hl, List.getElem?_range hi, Option.map_some, index_of_leader hr hl]
  · have hnone : (leaders r count)[i]? = none := by
      rw [classes, List.length_map] at hi
      exact List.getElem?_eq_none (Nat.le_of_not_lt hi)
    rw [hnone, List.getElem?_eq_none (by simpa using hi)]
    rfl

/-- A number leads a group of groups if it leads its group and that leads the others. -/
theorem leads_iff (hr : Equivalence r) (hs : Equivalence s) {l : Nat} (hl : l < count) :
    (∀ j < l, ¬ InvImage s (index r count) j l) ↔
      (∀ i < index r count l, ¬ s i (index r count l)) ∧ ∀ j < l, ¬ r j l := by
  constructor
  · intro hleads
    have hrel : ∀ j < l, ¬ r j l := by
      intro j hj hjl
      refine hleads j hj ?_
      rw [InvImage, (index_eq_iff hr (Nat.lt_trans hj hl) hl).2 hjl]
      exact hs.refl _
    refine ⟨fun i hi his => ?_, hrel⟩
    have hat := getElem?_index hr (mem_leaders.2 ⟨hl, hrel⟩)
    obtain ⟨j, hj⟩ := exists_leader_at (Nat.lt_trans hi (index_lt hr hl))
    refine hleads j (lt_of_leaders hj hat hi) ?_
    rw [InvImage, index_of_leader hr hj]
    exact his
  · rintro ⟨hgroups, hrel⟩ j hj hjl
    have hjlt := Nat.lt_trans hj hl
    have hat := getElem?_index hr (mem_leaders.2 ⟨hl, hrel⟩)
    rcases Nat.lt_trichotomy (index r count j) (index r count l) with hlt | heq | hlt
    · exact hgroups _ hlt hjl
    · exact hrel j hj ((index_eq_iff hr hjlt hl).1 heq)
    · -- The leader of the group of `j` would come before `l` although its group comes later.
      obtain ⟨k, hk, hkj⟩ := index_spec hr hjlt
      have hlk := lt_of_leaders hat hk hlt
      exact (mem_leaders.1 (List.mem_of_getElem? hk)).2 j (by omega) (hr.symm hkj)

theorem mem_leaders_of_invImage (hr : Equivalence r) (hs : Equivalence s) {l : Nat}
    (hl : l ∈ leaders (InvImage s (index r count)) count) : l ∈ leaders r count := by
  obtain ⟨hlt, hleads⟩ := mem_leaders.1 hl
  exact mem_leaders.2 ⟨hlt, ((leads_iff hr hs hlt).1 hleads).2⟩

theorem map_index_leaders_invImage (hr : Equivalence r) (hs : Equivalence s) :
    (leaders (InvImage s (index r count)) count).map (index r count) =
      leaders s (classes r count).length := by
  have hfilter : leaders (InvImage s (index r count)) count = (leaders r count).filter
      fun l => decide (∀ i < index r count l, ¬ s i (index r count l)) := by
    rw [leaders, leaders, List.filter_filter]
    refine List.filter_congr fun l hl => ?_
    rw [← Bool.decide_and, decide_eq_decide]
    exact leads_iff hr hs (List.mem_range.1 hl)
  rw [hfilter, leaders.eq_1 s, ← map_index_leaders hr, List.filter_map]
  rfl

theorem index_invImage (hr : Equivalence r) (hs : Equivalence s) {a : Nat} (ha : a < count) :
    index (InvImage s (index r count)) count a =
      index s (classes r count).length (index r count a) := by
  obtain ⟨l, hl, hla⟩ := index_spec (InvImage.equivalence s (index r count) hs) ha
  have hat : (leaders s (classes r count).length)[index (InvImage s (index r count)) count a]? =
      some (index r count l) := by
    rw [← map_index_leaders_invImage hr hs, List.getElem?_map, hl]
    rfl
  have hlead := (mem_leaders.1 (List.mem_of_getElem? hl)).1
  rw [← index_of_leader hs hat]
  exact (index_eq_iff hs (index_lt hr hlead) (index_lt hr ha)).2 hla

end Coarser

end Munch.Dfa.Partition
