-- SUMMARY: Rounds of the refinement make partitions finer; the last one is the coarsest that is stable.
import Munch.Proofs.Dfa.Alike
import Mathlib.Data.List.Sort

/-! # Rounds of the refinement

A partition is listed in one way only: groups by their smallest members, and
members in ascending order. A round compares states with the first members of
groups, and takes such a list to another one. Its groups hold the states that
were together and that every symbol leads to states that were together. Every
round but the last makes more groups, and none cuts a group of a stable
partition. So there are at most as many rounds as states, and what they end
with is the coarsest stable partition. -/

namespace Munch.Dfa

open Munch.Dfa.Partition (classes leaders groupOf)

namespace Partition

variable {p q : Partition} {g : Group} {count a b c i : Nat}

/-! ## Partitions as lists -/

/-- The groups hold the numbers below `count`, each of them once. They come in the order of their
first members, and the members of each ascend, so that the first is the smallest. -/
structure Lists (p : Partition) (count : Nat) : Prop where
  exists_group : ∀ i, (∃ g ∈ p, i ∈ g.members) ↔ i < count
  unique : ∀ g ∈ p, ∀ g' ∈ p, ∀ i ∈ g.members, i ∈ g'.members → g = g'
  ascending : ∀ g ∈ p, g.members.Pairwise (· < ·)
  firsts : p.Pairwise fun g g' => g.first < g'.first

/-- Every group is part of one of the other partition. -/
def Refines (p q : Partition) : Prop := ∀ g ∈ p, ∃ g' ∈ q, g.members ⊆ g'.members

theorem first_mem (g : Group) : g.first ∈ g.members := List.mem_cons_self

theorem Together.symm (h : p.Together a b) : p.Together b a := by
  obtain ⟨g, hg, ha, hb⟩ := h
  exact ⟨g, hg, hb, ha⟩

theorem Refines.together (h : p.Refines q) (hab : p.Together a b) : q.Together a b := by
  obtain ⟨g, hg, ha, hb⟩ := hab
  obtain ⟨g', hg', hsub⟩ := h g hg
  exact ⟨g', hg', hsub ha, hsub hb⟩

namespace Lists

theorem lt_of_mem (h : p.Lists count) (hg : g ∈ p) (hi : i ∈ g.members) : i < count :=
  (h.exists_group i).1 ⟨g, hg, hi⟩

theorem first_le (h : p.Lists count) (hg : g ∈ p) (hi : i ∈ g.members) : g.first ≤ i := by
  rcases List.mem_cons.1 hi with rfl | hi
  · exact Nat.le_refl _
  · exact Nat.le_of_lt (List.rel_of_pairwise_cons (h.ascending g hg) hi)

theorem lt_of_together (h : p.Lists count) (hab : p.Together a b) : a < count ∧ b < count := by
  obtain ⟨g, hg, ha, hb⟩ := hab
  exact ⟨h.lt_of_mem hg ha, h.lt_of_mem hg hb⟩

theorem together_self (h : p.Lists count) (ha : a < count) : p.Together a a := by
  obtain ⟨g, hg, ha⟩ := (h.exists_group a).2 ha
  exact ⟨g, hg, ha, ha⟩

theorem together_trans (h : p.Lists count) (hab : p.Together a b) (hbc : p.Together b c) :
    p.Together a c := by
  obtain ⟨g, hg, ha, hb⟩ := hab
  obtain ⟨g', hg', hb', hc⟩ := hbc
  cases h.unique g hg g' hg' b hb hb'
  exact ⟨g, hg, ha, hc⟩

theorem mem_members (h : p.Lists count) (hg : g ∈ p) :
    i ∈ g.members ↔ p.Together g.first i := by
  constructor
  · intro hi
    exact ⟨g, hg, first_mem g, hi⟩
  · rintro ⟨g', hg', hfirst, hi⟩
    cases h.unique g hg g' hg' g.first (first_mem g) hfirst
    exact hi

theorem refines (h : q.Lists count) (hp : p.Lists count)
    (hsub : ∀ a b, p.Together a b → q.Together a b) : p.Refines q := by
  intro g hg
  obtain ⟨g', hg', hfirst⟩ := (h.exists_group g.first).2 (hp.lt_of_mem hg (first_mem g))
  refine ⟨g', hg', fun i hi => ?_⟩
  obtain ⟨g'', hg'', hfirst', hi'⟩ := hsub _ _ ((hp.mem_members hg).1 hi)
  cases h.unique g' hg' g'' hg'' g.first hfirst hfirst'
  exact hi'

end Lists

/-! ### One list for one relation -/

/-- To be the same number or in one group. Unlike `Together` it relates all numbers to themselves. -/
def Joined (p : Partition) (a b : Nat) : Prop := a = b ∨ p.Together a b

namespace Lists

theorem joined_equivalence (h : p.Lists count) : Equivalence p.Joined where
  refl a := .inl rfl
  symm := by
    rintro a b (rfl | hab)
    · exact .inl rfl
    · exact .inr hab.symm
  trans := by
    rintro a b c (rfl | hab) hbc
    · exact hbc
    · rcases hbc with rfl | hbc
      · exact .inr hab
      · exact .inr (h.together_trans hab hbc)

theorem joined_iff (h : p.Lists count) (ha : a < count) : p.Joined a b ↔ p.Together a b := by
  constructor
  · rintro (rfl | hab)
    · exact h.together_self ha
    · exact hab
  · exact .inr

/-- No smaller number is in a group with its first member, and with no other one. -/
theorem leads_iff (h : p.Lists count) :
    (i < count ∧ ∀ j < i, ¬ p.Joined j i) ↔ ∃ g ∈ p, g.first = i := by
  constructor
  · rintro ⟨hi, hleads⟩
    obtain ⟨g, hg, hmem⟩ := (h.exists_group i).2 hi
    refine ⟨g, hg, Nat.le_antisymm (h.first_le hg hmem) (Nat.le_of_not_lt fun hlt => ?_)⟩
    exact hleads g.first hlt (.inr ((h.mem_members hg).1 hmem))
  · rintro ⟨g, hg, rfl⟩
    refine ⟨h.lt_of_mem hg (first_mem g), ?_⟩
    rintro j hj (rfl | hjg)
    · exact Nat.lt_irrefl _ hj
    · exact Nat.not_le_of_lt hj (h.first_le hg ((h.mem_members hg).2 hjg.symm))

theorem leaders_eq (h : p.Lists count) : leaders p.Joined count = p.map Group.first := by
  have hfirsts : (p.map Group.first).Pairwise (· < ·) := List.pairwise_map.2 h.firsts
  refine (leaders_ascending _ _).eq_of_mem_iff hfirsts fun i => ?_
  rw [mem_leaders, h.leads_iff, List.mem_map]

theorem groupOf_first (h : p.Lists count) (hg : g ∈ p) : groupOf p.Joined count g.first = g := by
  obtain ⟨hfirst, hothers⟩ := List.pairwise_cons.1 (h.ascending g hg)
  have hlist : (groupOf p.Joined count g.first).others = g.others := by
    refine (others_groupOf_ascending _ _ _).eq_of_mem_iff hothers fun i => ?_
    rw [mem_others_groupOf, h.joined_iff (h.lt_of_mem hg (first_mem g)), ← h.mem_members hg]
    constructor
    · rintro ⟨-, hlt, hi⟩
      exact (List.mem_cons.1 hi).resolve_left (Nat.ne_of_gt hlt)
    · intro hi
      have hmem : i ∈ g.members := List.mem_cons_of_mem _ hi
      exact ⟨h.lt_of_mem hg hmem, hfirst i hi, hmem⟩
  calc groupOf p.Joined count g.first
      = ⟨g.first, (groupOf p.Joined count g.first).others⟩ := rfl
    _ = g := by rw [hlist]

/-- A partition is the list of the classes of its relation. -/
theorem classes_eq (h : p.Lists count) : classes p.Joined count = p := by
  rw [classes, h.leaders_eq, List.map_map]
  calc p.map (groupOf p.Joined count ∘ Group.first)
      = p.map id := List.map_congr_left fun g hg => h.groupOf_first hg
    _ = p := p.map_id

/-- Partitions are equal as lists if and only if they group the numbers in the same way. -/
theorem eq_iff (hp : p.Lists count) (hq : q.Lists count) :
    p = q ↔ ∀ a < count, ∀ b < count, p.Together a b ↔ q.Together a b := by
  constructor
  · rintro rfl a _ b _
    exact Iff.rfl
  · intro h
    rw [← hp.classes_eq, ← hq.classes_eq]
    refine classes_congr fun a ha b hb => ?_
    rw [hp.joined_iff ha, hq.joined_iff ha, h a ha b hb]

end Lists

/-- The classes of an equivalence are a partition. -/
theorem lists_classes {r : Nat → Nat → Prop} (hr : Equivalence r) (count : Nat) :
    (classes r count).Lists count where
  exists_group i := by
    constructor
    · rintro ⟨g, hg, hi⟩
      obtain ⟨l, hl, rfl⟩ := List.mem_map.1 hg
      exact ((mem_members_groupOf hr hl).1 hi).1
    · intro hi
      obtain ⟨l, hl, hli⟩ := exists_leader hr hi
      exact ⟨_, List.mem_map_of_mem hl, (mem_members_groupOf hr hl).2 ⟨hi, hli⟩⟩
  unique := by
    rintro _ hg _ hg' i hi hi'
    obtain ⟨l, hl, rfl⟩ := List.mem_map.1 hg
    obtain ⟨l', hl', rfl⟩ := List.mem_map.1 hg'
    have hli := ((mem_members_groupOf hr hl).1 hi).2
    have hli' := ((mem_members_groupOf hr hl').1 hi').2
    rw [leader_unique hr hl hl' (hr.trans hli (hr.symm hli'))]
  ascending := by
    rintro _ hg
    obtain ⟨l, -, rfl⟩ := List.mem_map.1 hg
    refine List.pairwise_cons.2 ⟨fun i hi => ?_, others_groupOf_ascending r count l⟩
    exact (mem_others_groupOf.1 hi).2.1
  firsts := List.pairwise_map.2 (leaders_ascending r count)

end Partition

variable {σ α : Type} [Symbol σ] {d : Dfa σ α} {p p' q : Partition}

/-! ## One round -/

/-- What a round does to the partition `p`: `p'` is finer, and it groups the states that `p` groups
and that every symbol leads into one group of `p`, or nowhere. Of states that `p` groups the test,
which looks at the pieces of their own transitions only, says the same. -/
structure IsRound (d : Dfa σ α) (p p' : Partition) : Prop where
  lists : p'.Lists d.size
  refines : p'.Refines p
  together_iff : ∀ a < d.size, ∀ b < d.size, p'.Together a b ↔
    p.Together a b ∧ ∀ x, Option.Rel p.Together (d.succ a x) (d.succ b x)
  tested : ∀ a b, p.Together a b → ∃ apart,
    d.apartBySuccessors? (p.table d.size) a b = .ok apart ∧ (apart = false ↔ p'.Together a b)

theorem rel_imp {r s : Nat → Nat → Prop} {o o' : Option Nat}
    (h : ∀ i ∈ o, ∀ j ∈ o', r i j → s i j) (hrel : Option.Rel r o o') : Option.Rel s o o' := by
  cases hrel with
  | none => exact .none
  | some hij => exact .some (h _ rfl _ rfl hij)

theorem WellFormed.exists_round (h : d.WellFormed) (hp : p.Lists d.size) :
    ∃ p', d.refine? p = .ok p' ∧ d.IsRound p p' := by
  have hr := hp.joined_equivalence
  have hr' := d.succ_equivalence hr
  have hrefine := h.refine?_eq hr
  rw [hp.classes_eq] at hrefine
  have hlists := Partition.lists_classes hr' d.size
  refine ⟨_, hrefine, hlists, hp.refines hlists fun a b hab => ?_, fun a ha b hb => ?_,
    fun a b hab => ?_⟩
  · obtain ⟨ha, hb⟩ := hlists.lt_of_together hab
    exact (hp.joined_iff ha).1 ((Partition.together_classes hr' ha hb).1 hab).1
  · have hsucc : ∀ x, Option.Rel p.Joined (d.succ a x) (d.succ b x) ↔
        Option.Rel p.Together (d.succ a x) (d.succ b x) := by
      intro x
      have hjoined : ∀ i ∈ d.succ a x, ∀ j ∈ d.succ b x, p.Joined i j ↔ p.Together i j :=
        fun i hi j _ => hp.joined_iff (h.succ_lt hi)
      constructor
      · exact rel_imp fun i hi j hj => (hjoined i hi j hj).1
      · exact rel_imp fun i hi j hj => (hjoined i hi j hj).2
    rw [Partition.together_classes hr' ha hb, hp.joined_iff ha, forall_congr' hsucc]
  · obtain ⟨ha, hb⟩ := hp.lt_of_together hab
    have htest := h.apartBySuccessors?_eq hr ha hb
    rw [hp.classes_eq] at htest
    refine ⟨_, htest, ?_⟩
    rw [Partition.together_classes hr' ha hb, hp.joined_iff ha, decide_eq_false_iff_not, not_not]
    exact (and_iff_right hab).symm

/-- A round that changes something makes more groups. -/
theorem IsRound.length_lt (h : d.IsRound p p') (hp : p.Lists d.size) (hne : p' ≠ p) :
    p.length < p'.length := by
  have hfiner : ∀ a b, p'.Joined a b → p.Joined a b := by
    rintro a b (rfl | hab)
    · exact .inl rfl
    · exact .inr (h.refines.together hab)
  calc p.length
      = (classes p.Joined d.size).length := by rw [hp.classes_eq]
    _ < (classes p'.Joined d.size).length := by
      refine Partition.length_classes_lt hp.joined_equivalence h.lists.joined_equivalence hfiner ?_
      rwa [hp.classes_eq, h.lists.classes_eq]
    _ = p'.length := by rw [h.lists.classes_eq]

/-! ## All rounds -/

/-- From the partition `p` the loop ends after some number of rounds, with `q`: the last round changes
nothing, and the ones before it do. -/
inductive Settles (d : Dfa σ α) : Nat → Partition → Partition → Prop where
  | last {p : Partition} : d.refine? p = .ok p → d.Settles 1 p p
  | more {rounds : Nat} {p p' q : Partition} :
      d.refine? p = .ok p' → p' ≠ p → d.Settles rounds p' q → d.Settles (rounds + 1) p q

/-- The loop that is cut off after some rounds is not cut off if it has ended by then. -/
theorem Settles.refineAll?_eq {rounds limit : Nat} (h : d.Settles rounds p q)
    (hlimit : rounds ≤ limit) : d.refineAll? limit p = .ok q := by
  induction h generalizing limit with
  | last hfix =>
    obtain ⟨limit, rfl⟩ : ∃ k, limit = k + 1 := ⟨limit - 1, by omega⟩
    rw [refineAll?, hfix]
    exact if_pos rfl
  | more hround hne _ ih =>
    obtain ⟨limit, rfl⟩ : ∃ k, limit = k + 1 := ⟨limit - 1, by omega⟩
    rw [refineAll?, hround, Checked.ok_bind, if_neg hne]
    exact ih (Nat.le_of_succ_le_succ hlimit)

/-- Every round but the last needs a group more, of which there are at most as many as states. -/
theorem WellFormed.exists_settles (h : d.WellFormed) {p : Partition} (hp : p.Lists d.size) :
    ∃ rounds q, d.Settles rounds p q ∧ rounds + p.length ≤ d.size + 1 := by
  obtain ⟨p', hrefine, hround⟩ := h.exists_round hp
  have hle : ∀ {q : Partition}, q.Lists d.size → q.length ≤ d.size := by
    intro q hq
    rw [← hq.classes_eq]
    exact Partition.length_classes_le _ _
  by_cases hfix : p' = p
  · subst hfix
    have := hle hp
    exact ⟨1, p', .last hrefine, by omega⟩
  · have hlt := hround.length_lt hp hfix
    have := hle hround.lists
    obtain ⟨rounds, q, hq, hrounds⟩ := h.exists_settles hround.lists
    exact ⟨rounds + 1, q, .more hrefine hfix hq, by omega⟩
termination_by d.size - p.length

/-! ## The coarsest stable partition -/

/-- A partition between the states with the same codes and the stable partitions. -/
structure Encloses (d : Dfa σ α) (p : Partition) : Prop where
  lists : p.Lists d.size
  code_eq : ∀ {a b}, p.Together a b → d.code a = d.code b
  refined : ∀ q : Partition, q.Lists d.size → d.Stable q.Together → q.Refines p

/-- The partition is stable, and every stable one refines it. -/
structure IsCoarsest (d : Dfa σ α) (p : Partition) : Prop where
  lists : p.Lists d.size
  stable : d.Stable p.Together
  refined : ∀ q : Partition, q.Lists d.size → d.Stable q.Together → q.Refines p

theorem IsRound.encloses (h : d.IsRound p p') (hp : d.Encloses p) : d.Encloses p' where
  lists := h.lists
  code_eq hab := hp.code_eq (h.refines.together hab)
  refined q hq hstable := by
    have hqp := hp.refined q hq hstable
    refine h.lists.refines hq fun a b hab => ?_
    obtain ⟨ha, hb⟩ := hq.lt_of_together hab
    refine (h.together_iff a ha b hb).2 ⟨hqp.together hab, fun x => ?_⟩
    exact rel_imp (fun _ _ _ _ => hqp.together) (hstable.succ_rel ha hb hab x)

theorem Settles.isCoarsest {rounds : Nat} (hs : d.Settles rounds p q) (h : d.WellFormed)
    (hp : d.Encloses p) : d.IsCoarsest q := by
  induction hs with
  | last hfix =>
    obtain ⟨p', hrefine, hround⟩ := h.exists_round hp.lists
    cases hfix.symm.trans hrefine
    refine ⟨hp.lists, ⟨hp.code_eq, fun ha hb hab => ?_⟩, hp.refined⟩
    exact ((hround.together_iff _ ha _ hb).1 hab).2
  | more hrefine' _ _ ih =>
    obtain ⟨p', hrefine, hround⟩ := h.exists_round hp.lists
    cases hrefine'.symm.trans hrefine
    exact ih (hround.encloses hp)

theorem together_codeClasses (d : Dfa σ α) {a b : Nat} (ha : a < d.size) (hb : b < d.size) :
    (classes (d.Same 0) d.size).Together a b ↔ d.code a = d.code b :=
  Partition.together_classes (same_equivalence d 0) ha hb

theorem encloses_codeClasses (d : Dfa σ α) : d.Encloses (classes (d.Same 0) d.size) := by
  have hlists := Partition.lists_classes (same_equivalence d 0) d.size
  have hcode : ∀ {a b}, (classes (d.Same 0) d.size).Together a b → d.code a = d.code b := by
    intro a b hab
    obtain ⟨ha, hb⟩ := hlists.lt_of_together hab
    exact (d.together_codeClasses ha hb).1 hab
  refine ⟨hlists, hcode, fun q hq hstable => hlists.refines hq fun a b hab => ?_⟩
  obtain ⟨ha, hb⟩ := hq.lt_of_together hab
  exact (d.together_codeClasses ha hb).2 (hstable.code_eq hab)

/-- Partitions are equal as lists exactly if they group alike. Each round makes a partition finer, by
the groups of successors. From the states with equal codes the rounds end, after at most as many as
there are states, with the coarsest partition that is stable. -/
theorem classes?_coarsest [DecidableEq α] (d : Dfa σ α) (h : d.WellFormed) :
    (∀ p q : Partition, p.Lists d.size → q.Lists d.size →
      (p = q ↔ ∀ a < d.size, ∀ b < d.size, p.Together a b ↔ q.Together a b)) ∧
    (∀ p : Partition, p.Lists d.size → ∃ p', d.refine? p = .ok p' ∧ d.IsRound p p') ∧
    ∃ first rounds p, d.codeClasses? = .ok first ∧ first.Lists d.size ∧
      (∀ a < d.size, ∀ b < d.size, first.Together a b ↔ d.code a = d.code b) ∧
      d.Settles rounds first p ∧ rounds ≤ d.size ∧
      d.classes? = .ok p ∧ d.IsCoarsest p := by
  have hfirst := d.encloses_codeClasses
  obtain ⟨rounds, p, hsettles, hrounds⟩ := h.exists_settles hfirst.lists
  have hpos := Partition.length_classes_pos (same_equivalence d 0) (Nat.zero_lt_of_lt h.1)
  have hle : rounds ≤ d.size := by omega
  refine ⟨fun p q hp hq => hp.eq_iff hq, fun p hp => h.exists_round hp, _, rounds, p,
    codeClasses?_eq d, hfirst.lists, fun a ha b hb => d.together_codeClasses ha hb, hsettles, hle,
    ?_, hsettles.isCoarsest h hfirst⟩
  rw [classes?, codeClasses?_eq]
  exact hsettles.refineAll?_eq hle

/-- State 2 has no transitions and a trap is entered from state 1, both as good as the dead state. -/
theorem trapped_coarsest : trapped.WellFormed ∧
    ∃ rounds ≤ 6, ∃ first, trapped.codeClasses? = .ok first ∧
      trapped.Settles rounds first [⟨0, []⟩, ⟨1, [2]⟩, ⟨3, [4]⟩, ⟨5, []⟩] ∧
      trapped.IsCoarsest [⟨0, []⟩, ⟨1, [2]⟩, ⟨3, [4]⟩, ⟨5, []⟩] := by
  have hwf : trapped.WellFormed := by decide +kernel
  have hclasses : trapped.classes? = .ok [⟨0, []⟩, ⟨1, [2]⟩, ⟨3, [4]⟩, ⟨5, []⟩] := by
    decide +kernel
  obtain ⟨-, -, first, rounds, p, hfirst, -, -, hsettles, hrounds, hp, hcoarsest⟩ :=
    classes?_coarsest trapped hwf
  cases hclasses.symm.trans hp
  exact ⟨hwf, rounds, hrounds, first, hfirst, hsettles, hcoarsest⟩

end Munch.Dfa
