-- SUMMARY: What the groups of the refinement say about words, with a dead state and without one.
import Munch.Proofs.Dfa.Minimize

/-! # States that are alike

The refinement ends in the classes of states that are the same for any number of
steps. If there is a dead state, these are the states that no word tells apart.
If there is none, a symbol without a transition leads nowhere, and this is not
the same as leading to a state from which no code can be reached: states are
told apart by where their runs stop, too. -/

namespace Munch.Dfa

open Munch.Dfa.Partition (classes index leaders groupOf)

variable {σ α : Type} [Symbol σ] {d : Dfa σ α} {a b : Nat}

/-! ## Groups -/

/-- The two numbers are in one group. -/
def Partition.Together (p : Partition) (a b : Nat) : Prop :=
  ∃ g ∈ p, a ∈ g.members ∧ b ∈ g.members

theorem Partition.together_classes {r : Nat → Nat → Prop} {count : Nat} (hr : Equivalence r)
    (ha : a < count) (hb : b < count) : (classes r count).Together a b ↔ r a b := by
  constructor
  · rintro ⟨g, hg, hag, hbg⟩
    obtain ⟨l, hl, rfl⟩ := List.mem_map.1 hg
    have hla := ((mem_members_groupOf hr hl).1 hag).2
    have hlb := ((mem_members_groupOf hr hl).1 hbg).2
    exact hr.trans (hr.symm hla) hlb
  · intro hab
    obtain ⟨l, hl, hla⟩ := exists_leader hr ha
    refine ⟨groupOf r count l, List.mem_map_of_mem hl, ?_, ?_⟩
    · exact (mem_members_groupOf hr hl).2 ⟨ha, hla⟩
    · exact (mem_members_groupOf hr hl).2 ⟨hb, hr.trans hla hab⟩

/-! ## The same for any number of steps -/

def Alike (d : Dfa σ α) (a b : Nat) : Prop := ∀ k, d.Same k a b

theorem alike_equivalence (d : Dfa σ α) : Equivalence d.Alike where
  refl a k := (same_equivalence d k).refl a
  symm h k := (same_equivalence d k).symm (h k)
  trans h h' k := (same_equivalence d k).trans (h k) (h' k)

theorem alike_stable (d : Dfa σ α) : d.Stable d.Alike where
  code_eq h := h 0
  succ_rel {a b} _ _ hab x := by
    have hrel : ∀ k, Option.Rel (d.Same k) (d.succ a x) (d.succ b x) := fun k => (hab (k + 1)).2 x
    generalize d.succ a x = o, d.succ b x = o' at hrel
    cases hrel 0 with
    | none => exact .none
    | some _ =>
      refine .some fun k => ?_
      cases hrel k with
      | some hk => exact hk

/-- States that are related by a stable relation stay the same step by step. -/
theorem Stable.alike {r : Nat → Nat → Prop} (hs : d.Stable r) (h : d.WellFormed) (ha : a < d.size)
    (hb : b < d.size) (hab : r a b) : d.Alike a b := by
  intro k
  induction k generalizing a b with
  | zero => exact hs.code_eq hab
  | succ k ih =>
    refine ⟨ih ha hb hab, fun x => ?_⟩
    have hrel := hs.succ_rel ha hb hab x
    generalize hsa : d.succ a x = o, hsb : d.succ b x = o' at hrel ⊢
    cases hrel with
    | none => exact .none
    | some hst => exact .some (ih (h.succ_lt hsa) (h.succ_lt hsb) hst)

theorem WellFormed.classes?_eq_alike [DecidableEq α] (h : d.WellFormed) :
    d.classes? = .ok (classes d.Alike d.size) := by
  obtain ⟨m, hclasses, hfix⟩ := h.classes?_eq
  rw [hclasses]
  congr 1
  refine Partition.classes_congr fun a ha b hb => ⟨fun hab => ?_, fun hab => hab m⟩
  exact (same_stable hfix).alike h ha hb hab

theorem WellFormed.minimize?_of_alone [DecidableEq α] (h : d.WellFormed)
    (halone : ∀ a < d.size, ∀ b < d.size, d.Alike a b → a = b) : d.minimize? = .ok d := by
  rw [minimize?, h.classes?_eq_alike]
  exact if_pos (Partition.length_classes_of_alone halone)

theorem WellFormed.minimize?_of_alike [DecidableEq α] (h : d.WellFormed)
    (hmerged : ¬ ∀ a < d.size, ∀ b < d.size, d.Alike a b → a = b) :
    d.minimize? = .ok (d.quotient d.Alike) := by
  have hr := d.alike_equivalence
  rw [minimize?, h.classes?_eq_alike]
  refine (if_neg fun hlen => hmerged fun a ha b hb hab => ?_).trans (h.merge?_eq hr)
  exact eq_of_length_classes hr hlen ha hb hab

/-! ## Words -/

theorem WellFormed.indistinguishable_iff (h : d.WellFormed) (hdead : d.DeadInert) (ha : a < d.size)
    (hb : b < d.size) :
    d.Indistinguishable a b ↔ ∀ word, d.codeAfter a word = d.codeAfter b word := by
  refine forall_congr' fun word => ?_
  rw [h.codeAfter?_eq hdead ha, h.codeAfter?_eq hdead hb, Except.ok.injEq]

theorem WellFormed.stopsAlike_iff (h : d.WellFormed) (ha : a < d.size) (hb : b < d.size) :
    d.StopsAlike a b ↔ ∀ word, d.run a word = none ↔ d.run b word = none := by
  refine forall_congr' fun word => ?_
  rw [h.run?_eq ha, h.run?_eq hb, Except.ok.injEq, Except.ok.injEq]

/-- Without a dead state the only successors are those of transitions. -/
theorem succ_eq_next (hnone : d.dead = none) (id : Nat) (x : σ) : d.succ id x = d.next id x := by
  rw [succ, hnone]
  cases d.next id x <;> rfl

theorem exists_succ {k : Nat} (hd : d.dead = some k) (id : Nat) (x : σ) :
    ∃ target, d.succ id x = some target := by
  rw [succ, hd]
  cases d.next id x with
  | none => exact ⟨k, rfl⟩
  | some target => exact ⟨target, rfl⟩

theorem Stable.run_eq_none_iff {r : Nat → Nat → Prop} (hs : d.Stable r) (h : d.WellFormed)
    (hnone : d.dead = none) (ha : a < d.size) (hb : b < d.size) (hab : r a b) (word : List σ) :
    d.run a word = none ↔ d.run b word = none := by
  induction word generalizing a b with
  | nil => exact iff_of_false nofun nofun
  | cons x rest ih =>
    have hrel := hs.succ_rel ha hb hab x
    rw [succ_eq_next hnone, succ_eq_next hnone] at hrel
    rw [run, run]
    generalize hna : d.next a x = o, hnb : d.next b x = o' at hrel ⊢
    cases hrel with
    | none => rfl
    | some hst => exact ih (h.next_lt hna) (h.next_lt hnb) hst

/-- States that words do not tell apart are the same step by step. Where there is no dead state,
the words have to stop alike as well. -/
theorem DeadInert.alike_of_words (hdead : d.DeadInert)
    (hcodes : ∀ word, d.codeAfter a word = d.codeAfter b word)
    (hstops : d.dead = none → ∀ word, d.run a word = none ↔ d.run b word = none) :
    d.Alike a b := by
  intro k
  induction k generalizing a b with
  | zero => exact hcodes []
  | succ k ih =>
    refine ⟨ih hcodes hstops, fun x => ?_⟩
    have hcodes' := fun word => hcodes (x :: word)
    simp only [hdead.codeAfter_cons_succ] at hcodes'
    cases hnone : d.dead with
    | none =>
      have hstops' := fun word => hstops hnone (x :: word)
      simp only [run, ← succ_eq_next hnone] at hstops'
      generalize d.succ a x = o, d.succ b x = o' at hcodes' hstops' ⊢
      cases o with
      | none =>
        cases o' with
        | none => exact .none
        | some t => cases (hstops' []).1 rfl
      | some s =>
        cases o' with
        | none => cases (hstops' []).2 rfl
        | some t => exact .some (ih hcodes' fun _ => hstops')
    | some k =>
      obtain ⟨s, hs⟩ := exists_succ hnone a x
      obtain ⟨t, ht⟩ := exists_succ hnone b x
      rw [hs, ht] at hcodes' ⊢
      exact .some (ih hcodes' fun hd => absurd (hnone.symm.trans hd) (Option.some_ne_none k))

theorem WellFormed.alike_iff (h : d.WellFormed) (hdead : d.DeadInert) (ha : a < d.size)
    (hb : b < d.size) :
    d.Alike a b ↔ d.Indistinguishable a b ∧ (d.dead = none → d.StopsAlike a b) := by
  have hs := d.alike_stable
  rw [h.indistinguishable_iff hdead ha hb, h.stopsAlike_iff ha hb]
  constructor
  · intro hab
    exact ⟨hs.codeAfter_eq h hdead ha hb hab, fun hnone => hs.run_eq_none_iff h hnone ha hb hab⟩
  · rintro ⟨hcodes, hstops⟩
    exact hdead.alike_of_words hcodes hstops

/-- Two states end up in one group if and only if no word tells them apart and, if there is no dead
state, their runs stop alike. -/
theorem classes?_together_iff [DecidableEq α] (d : Dfa σ α) (h : d.WellFormed)
    (hdead : d.DeadInert) :
    ∃ p, d.classes? = .ok p ∧ ∀ a < d.size, ∀ b < d.size,
      (p.Together a b ↔ d.Indistinguishable a b ∧ (d.dead = none → d.StopsAlike a b)) := by
  refine ⟨_, h.classes?_eq_alike, fun a ha b hb => ?_⟩
  rw [Partition.together_classes d.alike_equivalence ha hb]
  exact h.alike_iff hdead ha hb

/-- With a dead state the groups are those of the states that no word tells apart. -/
theorem trapped_together_iff : trapped.WellFormed ∧ trapped.DeadInert ∧
    ∃ p, trapped.classes? = .ok p ∧
      ∀ a < 6, ∀ b < 6, p.Together a b ↔ trapped.Indistinguishable a b := by
  have hwf : trapped.WellFormed := by decide +kernel
  have hdead : trapped.DeadInert := by decide +kernel
  obtain ⟨p, hp, htogether⟩ := classes?_together_iff trapped hwf hdead
  refine ⟨hwf, hdead, p, hp, fun a ha b hb => (htogether a ha b hb).trans ?_⟩
  exact and_iff_left nofun

/-- An automaton without a dead state in which nothing leads from states 2 and 3 to a code. -/
def undeclared : Dfa Char Nat where
  start := 0
  dead := none
  states := #[⟨[(.only 'a', 1), (.only 'b', 2), (.only 'c', 3)], none⟩, ⟨[], some 7⟩, ⟨[], none⟩,
    ⟨[(.only 'c', 3)], none⟩]

/-- Only the run from state 3 goes on, so the two states stay apart. -/
theorem undeclared_apart : undeclared.WellFormed ∧ undeclared.DeadInert ∧
    undeclared.Indistinguishable 2 3 ∧
    ∃ p, undeclared.classes? = .ok p ∧ ¬ p.Together 2 3 := by
  have hwf : undeclared.WellFormed := by decide +kernel
  have hdead : undeclared.DeadInert := by decide +kernel
  have hthird : ∀ word, undeclared.codeAfter 3 word = none := by
    intro word
    induction word with
    | nil => rfl
    | cons x rest ih =>
      rw [codeAfter_cons]
      cases hnext : undeclared.next 3 x with
      | none => rfl
      | some target =>
        obtain ⟨set, hmem, -⟩ := hwf.next_eq_some_iff.1 hnext
        cases List.mem_singleton.1 hmem
        exact ih
  have hsecond : ∀ word, undeclared.codeAfter 2 word = none := by
    rintro (_ | ⟨x, rest⟩) <;> rfl
  refine ⟨hwf, hdead, ?_, [⟨0, []⟩, ⟨1, []⟩, ⟨2, []⟩, ⟨3, []⟩], ?_, ?_⟩
  · refine (hwf.indistinguishable_iff hdead (by decide) (by decide)).2 fun word => ?_
    rw [hsecond, hthird]
  · decide +kernel
  · simp [Partition.Together, Group.members]

end Munch.Dfa
