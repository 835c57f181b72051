-- SUMMARY: Minimizing again changes nothing, and codes may be changed before it or after.
import Munch.Proofs.Dfa.Alike
import Munch.Proofs.Dfa.Tidy

/-! # Quotients of quotients

Merging the groups of an automaton and then groups of those gives the automaton
that merging all at once does, down to the numbers of the states and the order
of the transitions: the leader of a group of groups is the leader of its first
group, and the transitions come from there. Where all groups have one state
nothing is merged. So the smallest automaton is its own smallest automaton, and
codes that make more states alike lead to the same one before and after. -/

namespace Munch.Dfa

open RangeSet (gatherAll)
open Munch.Dfa.Partition (classes index leaders groupOf)

variable {σ α β : Type} [Symbol σ] {d d' : Dfa σ α} {r s : Nat → Nat → Prop} {a b : Nat}

/-! ## Merged states by their leaders -/

theorem eq_of_states_eq (hstart : d.start = d'.start) (hdead : d.dead = d'.dead)
    (hstates : d.states = d'.states) : d = d' := by
  cases d
  cases d'
  cases hstart
  cases hdead
  cases hstates
  rfl

theorem states_quotient (d : Dfa σ α) (r : Nat → Nat → Prop) (i : Nat) :
    (d.quotient r).states[i]? =
      (leaders r d.size)[i]?.map fun l => d.groupState r i (groupOf r d.size l) := by
  simp [quotient, classes, Function.comp_def]

theorem quotient_congr (h : ∀ a < d.size, ∀ b < d.size, r a b ↔ s a b) :
    d.quotient r = d.quotient s := by
  have hclasses := Partition.classes_congr h
  have hindex : index r d.size = index s d.size := by
    funext id
    rw [index, index, hclasses]
  simp only [quotient, groupState, groupTransitions, hclasses, hindex]

theorem nonempty_of_isEmpty_eq_false
    (hsets : ∀ s ∈ d.states.toList, ∀ t ∈ s.transitions, t.1.isEmpty = false) :
    ∀ i, ∀ t ∈ d.transitions i, ∃ x, x ∈ t.1 := by
  intro i t ht
  cases hs : d.states[i]? with
  | none =>
    rw [transitions, hs] at ht
    cases ht
  | some st =>
    rw [transitions_of_state hs] at ht
    have hmem := Array.mem_toList_iff.2 (Array.mem_of_getElem? hs)
    exact RangeSet.isEmpty_eq_false_iff.1 (hsets st hmem t ht)

/-- If no set is empty, gathering leaves none to drop. -/
theorem groupTransitions_eq {g : Group} (hsets : ∀ t ∈ d.transitions g.first, ∃ x, x ∈ t.1) :
    d.groupTransitions r g =
      gatherAll ((d.transitions g.first).map fun t => (t.1, index r d.size t.2)) := by
  refine List.filter_eq_self.2 fun t ht => ?_
  have hne : ∀ e ∈ (d.transitions g.first).map fun t => (t.1, index r d.size t.2), ∃ x, x ∈ e.1 :=
    List.forall_mem_map.2 hsets
  simpa using RangeSet.isEmpty_eq_false_iff.2 (RangeSet.gatherAll_nonempty hne t ht)

/-! ## Groups of groups -/

section Coarser

variable (h : d.WellFormed) (hsets : ∀ i, ∀ t ∈ d.transitions i, ∃ x, x ∈ t.1)
  (hr : Equivalence r) (hs : Equivalence s)

include h hsets hr hs

theorem WellFormed.groupTransitions_quotient {l : Nat} (hl : l ∈ leaders r d.size)
    (hdead : (d.quotient r).dead ≠ some (index r d.size l)) {g g' : Group}
    (hg : g.first = index r d.size l) (hg' : g'.first = l) :
    (d.quotient r).groupTransitions s g =
      d.groupTransitions (InvImage s (index r d.size)) g' := by
  have hstate : (d.quotient r).states[index r d.size l]? =
      some (d.groupState r (index r d.size l) (groupOf r d.size l)) := by
    rw [states_quotient, Partition.getElem?_index hr hl]
    rfl
  have htransitions : (d.quotient r).transitions (index r d.size l) =
      gatherAll ((d.transitions l).map fun t => (t.1, index r d.size t.2)) := by
    rw [transitions_of_state hstate]
    exact (if_neg hdead).trans (groupTransitions_eq (hsets l))
  rw [groupTransitions_eq fun t ht => quotient_nonempty ht, groupTransitions_eq (hsets _), hg, hg',
    htransitions, RangeSet.gatherAll_gatherAll, List.map_map]
  congr 1
  refine List.map_congr_left fun t ht => ?_
  rw [Function.comp_apply, size_quotient, Partition.index_invImage hr hs (h.transitions_lt ht)]

omit hsets in
theorem WellFormed.dead_quotient_quotient :
    ((d.quotient r).quotient s).dead = (d.quotient (InvImage s (index r d.size))).dead := by
  show (d.dead.map (index r d.size)).map _ = d.dead.map _
  rw [Option.map_map]
  refine Option.map_congr fun k hk => ?_
  rw [Function.comp_apply, size_quotient, Partition.index_invImage hr hs (h.2.1 k hk)]

theorem WellFormed.groupState_quotient {i l : Nat}
    (hl : (leaders (InvImage s (index r d.size)) d.size)[i]? = some l) {g g' : Group}
    (hg : g.first = index r d.size l) (hg' : g'.first = l) :
    (d.quotient r).groupState s i g = d.groupState (InvImage s (index r d.size)) i g' := by
  have hmem := Partition.mem_leaders_of_invImage hr hs (List.mem_of_getElem? hl)
  have hi := Partition.index_of_leader (InvImage.equivalence s (index r d.size) hs) hl
  have hlt := (Partition.mem_leaders.1 hmem).1
  have hcode : (d.quotient r).code (index r d.size l) = d.code l := by
    rw [code, states_quotient, Partition.getElem?_index hr hmem]
    rfl
  have hdead : (d.quotient r).dead.map (index s (d.quotient r).size) =
      d.dead.map (index (InvImage s (index r d.size)) d.size) := h.dead_quotient_quotient hr hs
  rw [groupState, groupState, hg, hg', hcode, hdead]
  congr 1
  by_cases hd : d.dead.map (index (InvImage s (index r d.size)) d.size) = some i
  · rw [if_pos hd, if_pos hd]
  · rw [if_neg hd, if_neg hd]
    refine h.groupTransitions_quotient hsets hr hs hmem (fun hdr => hd ?_) hg hg'
    rw [← hdead, hdr, Option.map_some, size_quotient, ← Partition.index_invImage hr hs hlt, hi]

/-- Merging twice is merging once, by the coarser relation. -/
theorem WellFormed.quotient_quotient :
    (d.quotient r).quotient s = d.quotient (InvImage s (index r d.size)) := by
  have hstart : ((d.quotient r).quotient s).start =
      (d.quotient (InvImage s (index r d.size))).start := by
    show index s (d.quotient r).size (index r d.size d.start) = index _ d.size d.start
    rw [size_quotient, Partition.index_invImage hr hs h.1]
  have hstates : ((d.quotient r).quotient s).states =
      (d.quotient (InvImage s (index r d.size))).states := by
    refine Array.ext_getElem? fun i => ?_
    rw [states_quotient, states_quotient, size_quotient,
      ← Partition.map_index_leaders_invImage hr hs, List.getElem?_map, Option.map_map]
    refine Option.map_congr fun l hl => ?_
    exact h.groupState_quotient hsets hr hs hl rfl rfl
  exact eq_of_states_eq hstart (h.dead_quotient_quotient hr hs) hstates

end Coarser

/-! ## Groups of one -/

/-- Nothing changes if no two states are merged, as far as empty sets and targets that stand twice
do not matter. -/
theorem WellFormed.quotient_eq_self (h : d.WellFormed) (hdead : d.DeadInert) (hr : Equivalence r)
    (hsets : ∀ i, ∀ t ∈ d.transitions i, ∃ x, x ∈ t.1)
    (htargets : ∀ i, ((d.transitions i).map Prod.snd).Nodup)
    (halone : ∀ a < d.size, ∀ b < d.size, r a b → a = b) : d.quotient r = d := by
  have hindex : ∀ a < d.size, index r d.size a = a :=
    fun a ha => Partition.index_of_alone halone hr ha
  have hmap : d.dead.map (index r d.size) = d.dead := by
    rw [Option.map_congr fun k hk => hindex k (h.2.1 k hk), Option.map_id']
  have htransitions : ∀ i < d.size, ∀ g : Group, g.first = i →
      d.groupTransitions r g = d.transitions i := by
    rintro i hi g rfl
    have hid : (d.transitions g.first).map (fun t => (t.1, index r d.size t.2)) =
        d.transitions g.first := by
      rw [List.map_congr_left fun t ht => congrArg (Prod.mk t.1) (hindex t.2 (h.transitions_lt ht))]
      exact List.map_id _
    rw [groupTransitions_eq (hsets _), hid, RangeSet.gatherAll_of_nodup (htargets _)]
  have hstates : (d.quotient r).states = d.states := by
    refine Array.ext_getElem? fun i => ?_
    rw [states_quotient, Partition.leaders_of_alone halone]
    by_cases hi : i < d.size
    · obtain ⟨st, hst⟩ := exists_state hi
      have htrans : (if d.dead = some i then [] else st.transitions) = st.transitions := by
        split
        case isTrue hd => exact (hdead i hd st hst).1.symm
        case isFalse => rfl
      rw [List.getElem?_range hi, hst, Option.map_some, groupState, hmap, htransitions i hi _ rfl,
        transitions_of_state hst, htrans]
      exact congrArg (fun code => some (State.mk st.transitions code)) (code_of_state hst)
    · rw [List.getElem?_eq_none (by simpa using hi), Array.getElem?_eq_none (Nat.le_of_not_lt hi)]
      rfl
  exact eq_of_states_eq (hindex d.start h.1) hmap hstates

/-! ## Images -/

omit [Symbol σ] in
theorem rel_map_iff {f : Nat → Nat} {r' : Nat → Nat → Prop} {o o' : Option Nat}
    (h : ∀ a ∈ o, ∀ b ∈ o', r' (f a) (f b) ↔ r a b) :
    Option.Rel r' (o.map f) (o'.map f) ↔ Option.Rel r o o' := by
  match o, o' with
  | none, none => exact iff_of_true .none .none
  | none, some b => exact iff_of_false nofun nofun
  | some a, none => exact iff_of_false nofun nofun
  | some a, some b =>
    have hab := h a rfl b rfl
    constructor
    · rintro (hr | _)
      exact .some (hab.1 hr)
    · rintro (hr | _)
      exact .some (hab.2 hr)

theorem Image.same_iff {f : Nat → Nat} (hf : Image d d' f) (h : d.WellFormed) {k : Nat}
    (ha : a < d.size) (hb : b < d.size) : d'.Same k (f a) (f b) ↔ d.Same k a b := by
  induction k generalizing a b with
  | zero => rw [Same, Same, hf.code_eq ha, hf.code_eq hb]
  | succ k ih =>
    rw [Same, Same, ih ha hb]
    refine and_congr_right fun _ => forall_congr' fun x => ?_
    rw [hf.succ_eq ha, hf.succ_eq hb]
    exact rel_map_iff fun _ hs _ ht => ih (h.succ_lt hs) (h.succ_lt ht)

theorem Image.alike_iff {f : Nat → Nat} (hf : Image d d' f) (h : d.WellFormed) (ha : a < d.size)
    (hb : b < d.size) : d'.Alike (f a) (f b) ↔ d.Alike a b :=
  forall_congr' fun _ => hf.same_iff h ha hb

/-- An image in which states are merged that are alike has no two that are. -/
theorem Image.eq_of_alike {f : Nat → Nat} (hf : Image d d' f) (h : d.WellFormed)
    (hmerged : ∀ a < d.size, ∀ b < d.size, d.Alike a b → f a = f b) :
    ∀ i < d'.size, ∀ j < d'.size, d'.Alike i j → i = j := by
  intro i hi j hj hij
  obtain ⟨a, ha, rfl⟩ := hf.onto hi
  obtain ⟨b, hb, rfl⟩ := hf.onto hj
  exact hmerged a ha b hb ((hf.alike_iff h ha hb).1 hij)

/-! ## Other codes -/

section MapCodes

variable (f : α → β)

theorem quotient_mapCodes (d : Dfa σ α) (r : Nat → Nat → Prop) :
    (d.mapCodes f).quotient r = (d.quotient r).mapCodes f := by
  have hsize := size_mapCodes f d
  have hgroup : ∀ i g, (d.mapCodes f).groupState r i g =
      ⟨(d.groupState r i g).transitions, (d.groupState r i g).code.map f⟩ := by
    intro i g
    simp only [groupState, groupTransitions, transitions_mapCodes, code_mapCodes, hsize]
    rfl
  have hstates : ((d.mapCodes f).quotient r).states = ((d.quotient r).mapCodes f).states := by
    refine Array.ext_getElem? fun i => ?_
    rw [state_mapCodes, states_quotient, states_quotient, hsize, Option.map_map]
    exact Option.map_congr fun l _ => hgroup i _
  refine eq_of_states_eq ?_ ?_ hstates
  · show index r (d.mapCodes f).size d.start = index r d.size d.start
    rw [hsize]
  · show d.dead.map (index r (d.mapCodes f).size) = d.dead.map (index r d.size)
    rw [hsize]

theorem Image.mapCodes {g : Nat → Nat} (hg : Image d d' g) :
    Image (d.mapCodes f) (d'.mapCodes f) g where
  lt ha := by
    rw [size_mapCodes] at ha ⊢
    exact hg.lt ha
  onto hi := by
    rw [size_mapCodes] at hi
    rw [size_mapCodes]
    exact hg.onto hi
  start_eq := hg.start_eq
  dead_eq := hg.dead_eq
  code_eq ha := by
    rw [size_mapCodes] at ha
    rw [code_mapCodes, code_mapCodes, hg.code_eq ha]
  succ_eq ha x := by
    rw [size_mapCodes] at ha
    rw [succ_mapCodes, succ_mapCodes]
    exact hg.succ_eq ha x
  next_eq ha hdead := by
    rw [size_mapCodes] at ha
    obtain ⟨b, hb, hba, hnext⟩ := hg.next_eq ha hdead
    refine ⟨b, by rwa [size_mapCodes], hba, fun x => ?_⟩
    rw [next_mapCodes, next_mapCodes]
    exact hnext x

/-- The codes matter only as far as they are equal. -/
theorem Alike.of_codes {e : Dfa σ β} (hsucc : ∀ i x, e.succ i x = d.succ i x)
    (hcode : ∀ i j, d.code i = d.code j → e.code i = e.code j) (h : d.Alike a b) : e.Alike a b := by
  suffices hsame : ∀ k a b, d.Same k a b → e.Same k a b from fun k => hsame k a b (h k)
  intro k
  induction k with
  | zero => exact hcode
  | succ k ih =>
    rintro a b ⟨hab, hrel⟩
    refine ⟨ih a b hab, fun x => ?_⟩
    have hx := hrel x
    rw [hsucc, hsucc]
    generalize d.succ a x = o, d.succ b x = o' at hx ⊢
    cases hx with
    | none => exact .none
    | some hst => exact .some (ih _ _ hst)

theorem Alike.mapCodes (h : d.Alike a b) : (d.mapCodes f).Alike a b := by
  refine h.of_codes (succ_mapCodes f d) fun i j hij => ?_
  rw [code_mapCodes, code_mapCodes, hij]

theorem Alike.of_mapCodes (hf : Function.Injective f) (h : (d.mapCodes f).Alike a b) :
    d.Alike a b := by
  refine h.of_codes (fun i x => (succ_mapCodes f d i x).symm) fun i j hij => ?_
  rw [code_mapCodes, code_mapCodes] at hij
  exact Option.map_injective hf hij

end MapCodes

/-! ## Minimization -/

variable [DecidableEq α]

/-- With no empty set and no target twice, the smallest automaton is always the quotient. -/
theorem WellFormed.minimize?_eq_quotient (h : d.WellFormed) (hdead : d.DeadInert)
    (hsets : ∀ i, ∀ t ∈ d.transitions i, ∃ x, x ∈ t.1)
    (htargets : ∀ i, ((d.transitions i).map Prod.snd).Nodup) :
    d.minimize? = .ok (d.quotient d.Alike) := by
  by_cases halone : ∀ a < d.size, ∀ b < d.size, d.Alike a b → a = b
  · rw [h.quotient_eq_self hdead d.alike_equivalence hsets htargets halone]
    exact h.minimize?_of_alone halone
  · exact h.minimize?_of_alike halone

/-- The smallest automaton has one state for every group and is its own smallest automaton. It has as
many states as the one that it is made from only if it is that one. -/
theorem minimize?_idempotent (d : Dfa σ α) (h : d.WellFormed) (hdead : d.DeadInert) :
    ∃ d' p, d.minimize? = .ok d' ∧ d.classes? = .ok p ∧ d'.size = p.length ∧
      d'.minimize? = .ok d' ∧ (d'.size = d.size → d' = d) := by
  have hr := d.alike_equivalence
  by_cases halone : ∀ a < d.size, ∀ b < d.size, d.Alike a b → a = b
  · have hmin := h.minimize?_of_alone halone
    have hsize := (Partition.length_classes_of_alone halone).symm
    exact ⟨d, _, hmin, h.classes?_eq_alike, hsize, hmin, fun _ => rfl⟩
  · have hf := d.alike_stable.image_quotient h hdead hr
    have halone' := hf.eq_of_alike h fun a ha b hb hab => (Partition.index_eq_iff hr ha hb).2 hab
    refine ⟨_, _, h.minimize?_of_alike halone, h.classes?_eq_alike, size_quotient d d.Alike,
      (h.quotient hr).minimize?_of_alone halone', fun hsize => absurd ?_ halone⟩
    rw [size_quotient] at hsize
    exact fun a ha b hb hab => eq_of_length_classes hr hsize ha hb hab

theorem trapped_idempotent : trapped.WellFormed ∧ trapped.DeadInert ∧
    ∃ d' p, trapped.minimize? = .ok d' ∧ trapped.classes? = .ok p ∧ d'.size = p.length ∧
      d'.minimize? = .ok d' ∧ (d'.size = trapped.size → d' = trapped) := by
  have hwf : trapped.WellFormed := by decide +kernel
  have hdead : trapped.DeadInert := by decide +kernel
  exact ⟨hwf, hdead, minimize?_idempotent trapped hwf hdead⟩

variable [DecidableEq β] (f : α → β)

omit [DecidableEq α] in
/-- The smallest automaton with other codes is merged to what all of them are merged to at once. -/
theorem WellFormed.minimize?_mapCodes_quotient (h : d.WellFormed) (hdead : d.DeadInert)
    (hsets : ∀ i, ∀ t ∈ d.transitions i, ∃ x, x ∈ t.1) :
    ((d.quotient d.Alike).mapCodes f).minimize? =
      .ok ((d.mapCodes f).quotient (d.mapCodes f).Alike) := by
  have hr := d.alike_equivalence
  have hs := alike_equivalence ((d.quotient d.Alike).mapCodes f)
  have hf := d.alike_stable.image_quotient h hdead hr
  have hmerged : ((d.quotient d.Alike).mapCodes f).quotient ((d.quotient d.Alike).mapCodes f).Alike =
      (d.mapCodes f).quotient (d.mapCodes f).Alike := by
    rw [quotient_mapCodes, h.quotient_quotient hsets hr hs, ← quotient_mapCodes]
    exact quotient_congr fun a ha b hb => (hf.mapCodes f).alike_iff (h.mapCodes f) ha hb
  rw [← hmerged]
  refine ((h.quotient hr).mapCodes f).minimize?_eq_quotient
    ((hdead.quotient h hr d.alike_stable).mapCodes f) (fun i t ht => ?_) fun i => ?_
  · rw [transitions_mapCodes] at ht
    exact quotient_nonempty ht
  · rw [transitions_mapCodes]
    exact quotient_nodup d d.Alike i

/-- After other codes there is the same smallest automaton as from the smallest one with the other
codes. If different codes stay different, that is already the smallest one. -/
theorem minimize?_mapCodes (d : Dfa σ α) (h : d.WellFormed) (hdead : d.DeadInert)
    (hsets : ∀ s ∈ d.states.toList, ∀ t ∈ s.transitions, t.1.isEmpty = false) :
    ∃ d₁ d₂, d.minimize? = .ok d₁ ∧ (d.mapCodes f).minimize? = .ok d₂ ∧
      (d₁.mapCodes f).minimize? = .ok d₂ ∧ (Function.Injective f → d₂ = d₁.mapCodes f) := by
  have hsize := size_mapCodes f d
  by_cases halone : ∀ a < d.size, ∀ b < d.size, d.Alike a b → a = b
  · obtain ⟨d₂, -, -, hmin, -⟩ := (h.mapCodes f).minimize?_eq (hdead.mapCodes f)
    refine ⟨d, d₂, h.minimize?_of_alone halone, hmin, hmin, fun hf => ?_⟩
    have hself := (h.mapCodes f).minimize?_of_alone fun a ha b hb hab =>
      halone a (hsize ▸ ha) b (hsize ▸ hb) (hab.of_mapCodes f hf)
    exact Except.ok.inj (hmin.symm.trans hself)
  · refine ⟨_, _, h.minimize?_of_alike halone, (h.mapCodes f).minimize?_of_alike fun hall => ?_,
      h.minimize?_mapCodes_quotient f hdead (nonempty_of_isEmpty_eq_false hsets), fun hf => ?_⟩
    · exact halone fun a ha b hb hab =>
        hall a (hsize.symm ▸ ha) b (hsize.symm ▸ hb) (hab.mapCodes f)
    · rw [← quotient_mapCodes]
      exact quotient_congr fun a _ b _ => ⟨Alike.of_mapCodes f hf, Alike.mapCodes f⟩

/-- Codes that are all made equal, and codes that stay different. -/
theorem trapped_mapCodes : trapped.WellFormed ∧ trapped.DeadInert ∧
    (∀ s ∈ trapped.states.toList, ∀ t ∈ s.transitions, t.1.isEmpty = false) ∧
    ∃ d₁, trapped.minimize? = .ok d₁ ∧
      (∃ d₂, (trapped.mapCodes fun _ => ()).minimize? = .ok d₂ ∧
        (d₁.mapCodes fun _ => ()).minimize? = .ok d₂) ∧
      (trapped.mapCodes Nat.succ).minimize? = .ok (d₁.mapCodes Nat.succ) := by
  have hwf : trapped.WellFormed := by decide +kernel
  have hdead : trapped.DeadInert := by decide +kernel
  have hsets : ∀ s ∈ trapped.states.toList, ∀ t ∈ s.transitions, t.1.isEmpty = false := by
    decide +kernel
  obtain ⟨d₁, d₂, hmin, hafter, hbefore, -⟩ := minimize?_mapCodes (fun _ => ()) trapped hwf hdead hsets
  obtain ⟨d₁', d₂', hmin', hafter', -, hinj⟩ := minimize?_mapCodes Nat.succ trapped hwf hdead hsets
  obtain rfl : d₁ = d₁' := Except.ok.inj (hmin.symm.trans hmin')
  rw [hinj Nat.succ_injective] at hafter'
  exact ⟨hwf, hdead, hsets, d₁, hmin, ⟨d₂, hafter, hbefore⟩, hafter'⟩

end Munch.Dfa
