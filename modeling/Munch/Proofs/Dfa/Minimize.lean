-- SUMMARY: Minimization ends without a fault, and its result has the same longest matches.
import Munch.Proofs.Dfa.Refinement

/-! # Minimization

The merged automaton is an image of the one it is made from: a function on the
states takes start to start, dead state to dead state and successors to
successors, and keeps the codes. Words therefore end on the same codes in both,
and the longest matches are the same. -/

namespace Munch.Dfa

open RangeSet (Labels gatherAll)
open Munch.Dfa.Partition (classes index)

variable {σ α : Type} [Symbol σ] {d d' : Dfa σ α}

/-! ## Images -/

/-- `f` takes the states of `d` onto those of `d'`, in step with codes and successors. -/
structure Image (d d' : Dfa σ α) (f : Nat → Nat) : Prop where
  lt : ∀ {a}, a < d.size → f a < d'.size
  onto : ∀ {i}, i < d'.size → ∃ a < d.size, f a = i
  start_eq : d'.start = f d.start
  dead_eq : d'.dead = d.dead.map f
  code_eq : ∀ {a}, a < d.size → d'.code (f a) = d.code a
  succ_eq : ∀ {a}, a < d.size → ∀ x, d'.succ (f a) x = (d.succ a x).map f
  /-- Transitions are those of some state with the same image. -/
  next_eq : ∀ {a}, a < d.size → d'.dead ≠ some (f a) →
    ∃ b < d.size, f b = f a ∧ ∀ x, d'.next (f a) x = (d.next b x).map f

theorem Image.refl (d : Dfa σ α) : Image d d id where
  lt h := h
  onto h := ⟨_, h, rfl⟩
  start_eq := rfl
  dead_eq := by simp
  code_eq _ := rfl
  succ_eq _ _ := by simp
  next_eq h _ := ⟨_, h, rfl, fun x => by simp⟩

theorem Image.codeAfter_eq {f : Nat → Nat} (hf : Image d d' f) (h : d.WellFormed)
    (hdead : d.DeadInert) (hdead' : d'.DeadInert) {a : Nat} (ha : a < d.size) (word : List σ) :
    d'.codeAfter (f a) word = d.codeAfter a word := by
  induction word generalizing a with
  | nil => exact hf.code_eq ha
  | cons x rest ih =>
    rw [hdead'.codeAfter_cons_succ, hdead.codeAfter_cons_succ, hf.succ_eq ha]
    cases hsucc : d.succ a x with
    | none => rfl
    | some target => exact ih (h.succ_lt hsucc)

/-! ## Merged states -/

theorem foldlM_addTransition?_eq {s : State σ α} {id : Nat} {entries : List (RangeSet σ × Nat)}
    (hdisj : entries.Pairwise fun t u => t.1.isDisjoint u.1 = true)
    (hs : ∀ t ∈ s.transitions, ∀ e ∈ entries, t.1.isDisjoint e.1 = true) :
    entries.foldlM (fun s t => s.addTransition? id t.1 t.2) s =
      .ok ⟨s.transitions ++ entries.filter (!·.1.isEmpty), s.code⟩ := by
  induction entries generalizing s with
  | nil => rw [List.filter_nil, List.append_nil]; rfl
  | cons e entries ih =>
    obtain ⟨he, hrest⟩ := List.pairwise_cons.1 hdisj
    rw [List.foldlM_cons, State.addTransition?]
    by_cases hempty : e.1.isEmpty = true
    · rw [if_pos hempty, List.filter_cons_of_neg (by simp [hempty])]
      exact ih hrest fun t ht e' he' => hs t ht e' (List.mem_cons_of_mem _ he')
    · have hall : s.transitions.all (·.1.isDisjoint e.1) = true :=
        List.all_eq_true.2 fun t ht => hs t ht e List.mem_cons_self
      rw [if_neg hempty, if_pos hall, List.filter_cons_of_pos (by simpa using hempty)]
      refine (ih hrest ?_).trans (by simp)
      intro t ht e' he'
      rcases List.mem_append.1 ht with ht | ht
      · exact hs t ht e' (List.mem_cons_of_mem _ he')
      · rw [List.mem_singleton.1 ht]
        exact he e' he'

section Quotient

variable {r : Nat → Nat → Prop}

/-- The transitions of a group, made from those of its first member. -/
noncomputable def groupTransitions (d : Dfa σ α) (r : Nat → Nat → Prop) (g : Group) :
    List (RangeSet σ × Nat) :=
  (gatherAll ((d.transitions g.first).map fun t => (t.1, index r d.size t.2))).filter
    (!·.1.isEmpty)

open Classical in
noncomputable def groupState (d : Dfa σ α) (r : Nat → Nat → Prop) (id : Nat) (g : Group) :
    State σ α :=
  ⟨if d.dead.map (index r d.size) = some id then [] else d.groupTransitions r g, d.code g.first⟩

/-- The automaton of the classes. -/
noncomputable def quotient (d : Dfa σ α) (r : Nat → Nat → Prop) : Dfa σ α where
  start := index r d.size d.start
  dead := d.dead.map (index r d.size)
  states := ((classes r d.size).zipIdx.map fun p => d.groupState r p.2 p.1).toArray

theorem labels_groupTransitions {g : Group} {x : σ} {label : Nat} :
    Labels (d.groupTransitions r g) x label ↔
      ∃ target, Labels (d.transitions g.first) x target ∧ index r d.size target = label := by
  have hfilter : Labels (d.groupTransitions r g) x label ↔
      Labels (gatherAll ((d.transitions g.first).map fun t => (t.1, index r d.size t.2)))
        x label := by
    constructor
    · rintro ⟨set, hmem, hx⟩
      exact ⟨set, (List.mem_filter.1 hmem).1, hx⟩
    · rintro ⟨set, hmem, hx⟩
      refine ⟨set, List.mem_filter.2 ⟨hmem, ?_⟩, hx⟩
      simpa using RangeSet.isEmpty_eq_false_iff.2 ⟨x, hx⟩
  rw [hfilter, RangeSet.labels_gatherAll]
  constructor
  · rintro ⟨set, hmem, hx⟩
    obtain ⟨t, ht, heq⟩ := List.mem_map.1 hmem
    cases heq
    exact ⟨t.2, ⟨t.1, ht, hx⟩, rfl⟩
  · rintro ⟨target, ⟨set, hmem, hx⟩, rfl⟩
    exact ⟨set, List.mem_map.2 ⟨_, hmem, rfl⟩, hx⟩

theorem WellFormed.gathered_disjoint (h : d.WellFormed) (g : Group) :
    (gatherAll ((d.transitions g.first).map fun t => (t.1, index r d.size t.2))).Pairwise
      fun t u => t.1.isDisjoint u.1 = true :=
  RangeSet.gatherAll_disjoint (List.pairwise_map.2 (h.transitions_disjoint g.first))

theorem WellFormed.mergedState?_eq (h : d.WellFormed) {g : Group} (hg : g.first < d.size)
    (id : Nat) :
    d.mergedState? ((classes r d.size).table d.size) (d.dead.map (index r d.size)) id g =
      .ok (d.groupState r id g) := by
  rw [mergedState?, code?_eq hg, groupState]
  by_cases hid : d.dead.map (index r d.size) = some id
  · rw [if_pos hid]
    exact if_pos hid
  · have hentries : (d.transitions g.first).foldlM
        (fun (entries : List (RangeSet σ × Nat)) (t : RangeSet σ × Nat) => (do
          return RangeSet.gather entries t.1
            (← groupOf? ((classes r d.size).table d.size) t.2) :
              Except (Fault σ) (List (RangeSet σ × Nat)))) [] =
        .ok (gatherAll ((d.transitions g.first).map fun (t : RangeSet σ × Nat) =>
          (t.1, index r d.size t.2))) := by
      rw [gatherAll, List.foldl_map]
      refine Checked.foldlM_eq (g := fun acc (t : RangeSet σ × Nat) =>
        RangeSet.gather acc t.1 (index r d.size t.2)) ?_
      intro acc t ht
      rw [groupOf?, Partition.table_classes (h.transitions_lt ht)]
      rfl
    rw [if_neg hid]
    refine (if_neg hid).trans ?_
    rw [transitions?_eq hg, Checked.ok_bind, hentries, Checked.ok_bind]
    exact foldlM_addTransition?_eq (h.gathered_disjoint g) (by simp)

theorem WellFormed.merge?_eq (h : d.WellFormed) (hr : Equivalence r) :
    d.merge? (classes r d.size) = .ok (d.quotient r) := by
  have hstates : (classes r d.size).zipIdx.mapM (fun p =>
      (d.mergedState? ((classes r d.size).table d.size) (d.dead.map (index r d.size)) p.2 p.1 :
        Except (Fault σ) _)) =
      .ok ((classes r d.size).zipIdx.map fun p => d.groupState r p.2 p.1) := by
    refine Checked.mapM_eq fun p hp => ?_
    have hg := (Partition.getElem?_classes hr (List.mem_zipIdx_iff_getElem?.1 hp)).1
    exact h.mergedState?_eq hg p.2
  rw [merge?, mapM_groupOf?_classes fun i hi => h.2.1 i hi, Checked.ok_bind, hstates,
    Checked.ok_bind, groupOf?, Partition.table_classes h.1]
  rfl

/-! ## The quotient -/

theorem size_quotient (d : Dfa σ α) (r : Nat → Nat → Prop) :
    (d.quotient r).size = (classes r d.size).length := by
  simp [quotient, size]

theorem state_quotient {i : Nat} {g : Group} (hg : (classes r d.size)[i]? = some g) :
    (d.quotient r).states[i]? = some (d.groupState r i g) := by
  simp [quotient, hg]

theorem exists_group {i : Nat} (hi : i < (d.quotient r).size) :
    ∃ g, (classes r d.size)[i]? = some g := by
  rw [size_quotient] at hi
  exact ⟨_, List.getElem?_eq_getElem hi⟩

theorem index_lt_size (hr : Equivalence r) {a : Nat} (ha : a < d.size) :
    index r d.size a < (d.quotient r).size := by
  rw [size_quotient]
  exact Partition.index_lt hr ha

/-- The first member of a state's group is related to it. -/
theorem exists_first (hr : Equivalence r) {a : Nat} (ha : a < d.size) :
    ∃ g, (classes r d.size)[index r d.size a]? = some g ∧ g.first < d.size ∧ r g.first a := by
  obtain ⟨g, hg⟩ : ∃ g, (classes r d.size)[index r d.size a]? = some g :=
    ⟨_, List.getElem?_eq_getElem (Partition.index_lt hr ha)⟩
  obtain ⟨hlt, hi⟩ := Partition.getElem?_classes hr hg
  exact ⟨g, hg, hlt, (Partition.index_eq_iff hr hlt ha).1 hi⟩

theorem WellFormed.quotient (h : d.WellFormed) (hr : Equivalence r) :
    (d.quotient r).WellFormed := by
  refine ⟨index_lt_size hr h.1, ?_, ?_⟩
  · intro id hid
    obtain ⟨k, hk, rfl⟩ := Option.map_eq_some_iff.1 hid
    exact index_lt_size hr (h.2.1 k hk)
  · intro s hs
    obtain ⟨i, hi, hs⟩ := Array.mem_iff_getElem.1 (Array.mem_toList_iff.1 hs)
    obtain ⟨g, hg⟩ := exists_group hi
    have hstate := Array.getElem?_eq_getElem hi
    rw [state_quotient hg, hs] at hstate
    cases hstate
    show (∀ t ∈ (d.groupState r i g).transitions, _) ∧
      List.Pairwise _ (d.groupState r i g).transitions
    rw [groupState]
    split
    · exact ⟨by simp, .nil⟩
    · refine ⟨fun t ht => ?_, (h.gathered_disjoint g).filter _⟩
      have hx := (List.mem_filter.1 ht).2
      obtain ⟨x, hx⟩ := RangeSet.isEmpty_eq_false_iff.1 (by simpa using hx)
      obtain ⟨target, htarget, heq⟩ := labels_groupTransitions.1 ⟨t.1, ht, hx⟩
      obtain ⟨set, hmem, -⟩ := htarget
      rw [← heq]
      exact index_lt_size hr (h.transitions_lt hmem)

theorem DeadInert.quotient (hdead : d.DeadInert) (h : d.WellFormed) (hr : Equivalence r)
    (hs : d.Stable r) : (d.quotient r).DeadInert := by
  intro id hid s hstate
  obtain ⟨k, hk, rfl⟩ := Option.map_eq_some_iff.1 hid
  have hklt := h.2.1 k hk
  obtain ⟨g, hg, -, hgk⟩ := exists_first hr hklt
  rw [state_quotient hg] at hstate
  cases hstate
  have hcode : d.code g.first = d.code k := hs.code_eq hgk
  exact ⟨if_pos hid, hcode.trans (hdead.code_eq hk)⟩

/-- A group leads where its first member does, if it is not the group of the dead state. -/
theorem WellFormed.next_quotient (h : d.WellFormed) (hr : Equivalence r) {i : Nat} {g : Group}
    (hg : (classes r d.size)[i]? = some g) (hi : (d.quotient r).dead ≠ some i) (x : σ) :
    (d.quotient r).next i x = (d.next g.first x).map (index r d.size) := by
  have hi' : ¬ d.dead.map (index r d.size) = some i := hi
  refine Option.ext fun target => ?_
  rw [(h.quotient hr).next_eq_some_iff, transitions_of_state (state_quotient hg), groupState,
    if_neg hi', labels_groupTransitions, Option.map_eq_some_iff]
  simp only [h.next_eq_some_iff]

/-- The group of the dead state has no transitions, and those of its members lead back to it. -/
theorem Stable.index_succ_dead (hs : d.Stable r) (h : d.WellFormed) (hdead : d.DeadInert)
    (hr : Equivalence r) {a : Nat} (ha : a < d.size)
    (hd : (d.quotient r).dead = some (index r d.size a)) (x : σ) :
    (d.succ a x).map (index r d.size) = (d.quotient r).dead := by
  obtain ⟨k, hk, hka⟩ := Option.map_eq_some_iff.1 hd
  have hklt := h.2.1 k hk
  have hrel := hs.succ_rel hklt ha ((Partition.index_eq_iff hr hklt ha).1 hka) x
  have hsucc : d.succ k x = some k := by
    rw [succ, hdead.next_eq hk, hk]
    rfl
  rw [← (map_index_eq_iff hr (fun _ => h.succ_lt) (fun _ => h.succ_lt)).2 hrel, hsucc, hd,
    Option.map_some, hka]

theorem Stable.image_quotient (hs : d.Stable r) (h : d.WellFormed) (hdead : d.DeadInert)
    (hr : Equivalence r) : Image d (d.quotient r) (index r d.size) where
  lt ha := index_lt_size hr ha
  onto hi := by
    obtain ⟨g, hg⟩ := exists_group hi
    obtain ⟨hlt, hgi⟩ := Partition.getElem?_classes hr hg
    exact ⟨g.first, hlt, hgi⟩
  start_eq := rfl
  dead_eq := rfl
  code_eq ha := by
    obtain ⟨g, hg, -, hga⟩ := exists_first hr ha
    rw [code_of_state (state_quotient hg)]
    exact hs.code_eq hga
  succ_eq {a} ha x := by
    by_cases hd : (d.quotient r).dead = some (index r d.size a)
    · rw [hs.index_succ_dead h hdead hr ha hd x, succ, (hdead.quotient h hr hs).next_eq hd]
      rfl
    · obtain ⟨g, hg, hglt, hga⟩ := exists_first hr ha
      have hrel : Option.Rel r (d.succ g.first x) (d.succ a x) := hs.succ_rel hglt ha hga x
      have hmap := (map_index_eq_iff hr (fun _ => h.succ_lt) (fun _ => h.succ_lt)).2 hrel
      rw [← hmap, succ, h.next_quotient hr hg hd, succ]
      cases d.next g.first x <;> rfl
  next_eq ha hd := by
    obtain ⟨g, hg, hglt, -⟩ := exists_first hr ha
    exact ⟨g.first, hglt, (Partition.getElem?_classes hr hg).2, h.next_quotient hr hg hd⟩

end Quotient

/-! ## The smallest automaton -/

/-- With as many classes as states, no two states are related. -/
theorem eq_of_length_classes {r : Nat → Nat → Prop} {count : Nat} (hr : Equivalence r)
    (hlen : (classes r count).length = count) {a b : Nat} (ha : a < count) (hb : b < count)
    (hab : r a b) : a = b := by
  have hsub : (Partition.leaders r count).Sublist (List.range count) := List.filter_sublist
  have hall : Partition.leaders r count = List.range count := by
    refine hsub.eq_of_length ?_
    rw [List.length_range]
    rw [classes, List.length_map] at hlen
    exact hlen
  have hleads : ∀ i < count, i ∈ Partition.leaders r count :=
    fun i hi => hall ▸ List.mem_range.2 hi
  exact Partition.leader_unique hr (hleads a ha) (hleads b hb) hab

/-- The result is an image in which states stay apart that differ after some number of steps. -/
theorem WellFormed.minimize?_eq [DecidableEq α] (h : d.WellFormed) (hdead : d.DeadInert) :
    ∃ d' f m, d.minimize? = .ok d' ∧ d'.WellFormed ∧ d'.DeadInert ∧ Image d d' f ∧
      ∀ a < d.size, ∀ b < d.size, d.Same m a b → f a = f b := by
  obtain ⟨m, hclasses, hfix⟩ := h.classes?_eq
  have hr := same_equivalence d m
  have hs := same_stable hfix
  rw [minimize?, hclasses]
  by_cases hlen : (classes (d.Same m) d.size).length = d.size
  · exact ⟨d, id, m, if_pos hlen, h, hdead, .refl d,
      fun a ha b hb hab => eq_of_length_classes hr hlen ha hb hab⟩
  · exact ⟨d.quotient (d.Same m), index (d.Same m) d.size, m,
      (if_neg hlen).trans (h.merge?_eq hr), h.quotient hr, hdead.quotient h hr hs,
      hs.image_quotient h hdead hr,
      fun a ha b hb hab => (Partition.index_eq_iff hr ha hb).2 hab⟩

/-- Minimization ends with a partition that one more round does not change, without a fault, and
with a well-formed automaton that has the same longest matches. -/
theorem minimize?_keeps_longestMatch [DecidableEq α] (d : Dfa σ α) (h : d.WellFormed)
    (hdead : d.DeadInert) :
    (∃ p, d.classes? = .ok p ∧ d.refine? p = .ok p) ∧
      ∃ d', d.minimize? = .ok d' ∧ d'.WellFormed ∧ d'.DeadInert ∧
        ∀ input, ∃ m, d.longestMatch input = .ok m ∧ d'.longestMatch input = .ok m := by
  constructor
  · obtain ⟨m, hclasses, hfix⟩ := h.classes?_eq
    refine ⟨_, hclasses, ?_⟩
    rw [h.refine?_same, hfix]
  · obtain ⟨d', f, -, hmin, h', hdead', hf, -⟩ := h.minimize?_eq hdead
    refine ⟨d', hmin, h', hdead', fun input => ?_⟩
    obtain ⟨m, hm, hlongest⟩ := h.longestMatch_eq hdead input
    obtain ⟨m', hm', hlongest'⟩ := h'.longestMatch_eq hdead' input
    rw [hf.start_eq] at hlongest'
    simp only [hf.codeAfter_eq h hdead hdead' h.1] at hlongest'
    exact ⟨m, hm, hlongest.unique hlongest' ▸ hm'⟩

/-- A partial automaton with a dead state, a trap and a state that nothing leads to. -/
def trapped : Dfa Char Nat where
  start := 0
  dead := some 3
  states := #[⟨[(.only 'a', 1), (.only 'b', 2), (.only 'c', 4)], none⟩, ⟨[(.only 'c', 3)], some 7⟩,
    ⟨[], some 7⟩, ⟨[], none⟩, ⟨[(.full, 4)], none⟩, ⟨[(.only 'a', 5)], some 8⟩]

theorem trapped_keeps_longestMatch : trapped.WellFormed ∧ trapped.DeadInert ∧
    ∃ d', trapped.minimize? = .ok d' ∧
      ∀ input, ∃ m, trapped.longestMatch input = .ok m ∧ d'.longestMatch input = .ok m := by
  have hwf : trapped.WellFormed := by decide +kernel
  have hdead : trapped.DeadInert := by decide +kernel
  obtain ⟨-, d', hmin, -, -, hmatch⟩ := minimize?_keeps_longestMatch trapped hwf hdead
  exact ⟨hwf, hdead, d', hmin, hmatch⟩

end Munch.Dfa
