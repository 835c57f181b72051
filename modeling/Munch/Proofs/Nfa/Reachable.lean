-- SUMMARY: What can be reached by edges of any kind is what words lead to, and what determinization finds.
import Munch.Proofs.Dfa.Determinize
import Munch.Proofs.Nfa.Rules

/-! # Reachable states

The search for reachable states does not look at labels, and a path reads the
symbols of some. Both find the same states if every label has a symbol, and a
builder leaves out the edges that have none. Determinization follows words, so
its sets hold these states and no others. -/

namespace Munch.Nfa

variable {σ α : Type} [Symbol σ]

/-! ## Building step by step -/

namespace Builder

/-- What a builder can become. A step that fails leaves it as it was. -/
inductive Made : Builder σ α → Prop where
  | empty : Made .empty
  | newState {b : Builder σ α} : Made b → Made b.newState
  | silent {b b' : Builder σ α} {source target : Nat} :
      Made b → b.addSilent? source target = .ok b' → Made b'
  | transition {b b' : Builder σ α} {source target : Nat} {set : RangeSet σ} :
      Made b → b.addTransition? source set target = .ok b' → Made b'
  | code {b b' : Builder σ α} {id : Nat} {code : α} :
      Made b → b.setCode? id code = .ok b' → Made b'

variable {b b' result : Builder σ α} {id : Nat}

theorem guarded_eq_ok (h : b.guarded id result = .ok b') : id < b.size ∧ result = b' := by
  rw [guarded] at h
  split at h
  case isTrue hid => exact ⟨hid, Except.ok.inj h⟩
  case isFalse => cases h

/-- Nothing happens to a state that does not exist. -/
theorem modify_of_le (h : b.size ≤ id) (f : State σ α → State σ α) : b.modify id f = b := by
  have hstates : b.states.modify id f = b.states := by
    refine Array.ext_getElem? fun i => ?_
    rw [Array.getElem?_modify]
    split
    case isTrue hi =>
      subst hi
      rw [Array.getElem?_eq_none h]
      rfl
    case isFalse => rfl
  rw [modify, hstates]

namespace Made

theorem addSilent (h : b.Made) (source target : Nat) : (b.addSilent source target).Made := by
  by_cases hsource : source < b.size
  · exact h.silent (if_pos hsource)
  · rwa [Builder.addSilent, addEdge, modify_of_le (Nat.le_of_not_lt hsource)]

theorem addTransition (h : b.Made) (source : Nat) (set : RangeSet σ) (target : Nat) :
    (b.addTransition source set target).Made := by
  by_cases hempty : set.isEmpty = true
  · rwa [Builder.addTransition, if_pos hempty]
  · by_cases hsource : source < b.size
    · have hstep : b.addTransition? source set target = .ok (b.addTransition source set target) := by
        rw [addTransition?, if_neg hempty]
        exact if_pos hsource
      exact h.transition hstep
    · rwa [Builder.addTransition, if_neg hempty, addEdge, modify_of_le (Nat.le_of_not_lt hsource)]

theorem setCode (h : b.Made) (id : Nat) (code : α) : (b.setCode id code).Made := by
  by_cases hid : id < b.size
  · exact h.code (if_pos hid)
  · rwa [Builder.setCode, modify_of_le (Nat.le_of_not_lt hid)]

end Made

/-- Every label that is noted has a symbol. -/
theorem Made.exists_mem_label (h : b.Made) {i j : Nat} {set : RangeSet σ}
    (he : b.HasEdge i (some set) j) : ∃ x, x ∈ set := by
  induction h with
  | empty => exact absurd he.lt (Nat.not_lt_zero i)
  | newState _ ih =>
    rcases (grows_newState _).edge_iff.1 he with he | he
    · exact ih he
    · exact he.elim
  | silent _ hok ih =>
    obtain ⟨hsource, rfl⟩ := guarded_eq_ok hok
    rcases (grows_addSilent hsource _).edge_iff.1 he with he | ⟨-, hlabel, -⟩
    · exact ih he
    · cases hlabel
  | @transition b b' source target label _ hok ih =>
    rw [addTransition?] at hok
    split at hok
    -- An edge without symbols is not noted, and nothing has changed.
    case isTrue =>
      cases hok
      exact ih he
    case isFalse =>
      obtain ⟨hsource, rfl⟩ := guarded_eq_ok hok
      obtain ⟨new, hgrows, hnew⟩ := grows_addTransition hsource label target
      rcases hgrows.edge_iff.1 he with he | he
      · exact ih he
      · obtain ⟨hx, -, hlabel, -⟩ := (hnew _ _ _).1 he
        cases hlabel
        exact hx
  | code _ hok ih =>
    obtain ⟨-, rfl⟩ := guarded_eq_ok hok
    exact ih (hasEdge_setCode.1 he)

end Builder

/-! ### Fragments and rules -/

open Builder (Made)

mutual

theorem made_build {b : Builder σ α} (h : b.Made) : (f : Fragment σ) → (f.build b).1.Made
  | .nothing => h.newState.newState
  | .emptyString => h.newState.newState.addSilent _ _
  | .oneOf set => h.newState.newState.addTransition _ _ _
  | .sequence items => (made_buildChain h.newState b.size items).newState.addSilent _ _
  | .alternative items => made_buildBranches h.newState.newState _ items
  | .optRep body optional repeating => by
    have hbody := ((made_build h.newState body).newState.addSilent b.size
      (body.build b.newState).2.entry).addSilent (body.build b.newState).2.exit
        (body.build b.newState).1.size
    cases optional <;> cases repeating
    · exact hbody
    · exact hbody.addSilent _ _
    · exact hbody.addSilent _ _
    · exact (hbody.addSilent _ _).addSilent _ _

theorem made_buildChain {b : Builder σ α} (h : b.Made) (last : Nat) :
    (items : List (Fragment σ)) → (Fragment.buildChain b last items).1.Made
  | [] => h
  | item :: items => made_buildChain ((made_build h item).addSilent _ _) _ items

theorem made_buildBranches {b : Builder σ α} (h : b.Made) (outer : Ends) :
    (items : List (Fragment σ)) → (Fragment.buildBranches b outer items).Made
  | [] => h
  | item :: items =>
    made_buildBranches (((made_build h item).addSilent _ _).addSilent _ _) outer items

end

/-- The automaton of a list of rules is made by these steps as well. -/
theorem made_ofRules (rules : List (Fragment σ × α)) :
    (rules.foldl Builder.addRule Builder.empty.newState).Made := by
  refine List.foldlRecOn rules _ (Made.newState .empty) ?_
  intro b hb rule _
  exact ((made_build hb rule.1).addSilent _ _).setCode _ _

/-! ## Words -/

variable {n : Nfa σ α} {i j : Nat}

theorem exists_edge_of_mem_targets (h : j ∈ n.targets i) : ∃ label, ⟨label, j⟩ ∈ n.edges i := by
  obtain ⟨e, he, rfl⟩ := List.mem_map.1 h
  exact ⟨e.label, he⟩

/-- Whatever a word leads to is reachable. -/
theorem WellFormed.mem_reachable_of_path (h : n.WellFormed) {word : List σ}
    (hi : i ∈ n.reachable) (hp : n.Path i word j) : j ∈ n.reachable := by
  have hnext : ∀ i, ∀ j ∈ n.targets i, j < n.size := by
    intro i j hj
    obtain ⟨label, he⟩ := exists_edge_of_mem_targets hj
    exact h.target_lt he
  have hclosed : ∀ i ∈ n.reachable, ∀ j ∈ n.targets i, j ∈ n.reachable :=
    StateSet.reach_closed hnext (StateSet.length_missing_le _ _) fun _ => .inl
  induction hp with
  | stay => exact hi
  | silent he _ ih => exact ih (hclosed _ hi _ (List.mem_map.2 ⟨_, he, rfl⟩))
  | read he _ _ ih => exact ih (hclosed _ hi _ (List.mem_map.2 ⟨_, he, rfl⟩))

/-- If all labels have symbols, a state is reachable exactly if some word leads to it. -/
theorem WellFormed.mem_reachable (h : n.WellFormed)
    (hlabels : ∀ i set j, ⟨some set, j⟩ ∈ n.edges i → ∃ x, x ∈ set) :
    j ∈ n.reachable ↔ ∃ word, n.Path n.start word j := by
  constructor
  · have hstart : ∀ i ∈ ({n.start} : StateSet), ∃ word, n.Path n.start word i := by
      intro i hi
      cases StateSet.mem_singleton.1 hi
      exact ⟨[], .stay _⟩
    refine StateSet.reach_induction ?_ hstart hstart j
    rintro i ⟨word, hp⟩ j hj
    obtain ⟨label, he⟩ := exists_edge_of_mem_targets hj
    cases label with
    | none => exact ⟨_, hp.append (.silent he (.stay j))⟩
    | some set =>
      obtain ⟨x, hx⟩ := hlabels _ _ _ he
      exact ⟨_, hp.append (.read he hx (.stay j))⟩
  · rintro ⟨word, hp⟩
    exact h.mem_reachable_of_path (StateSet.mem_reach_of_mem (StateSet.mem_singleton.2 rfl)) hp

theorem mem_reachable_ofRules (rules : List (Fragment σ × α)) :
    j ∈ (ofRules rules).reachable ↔ ∃ word, (ofRules rules).Path (ofRules rules).start word j :=
  (ofRules_wellFormed rules).mem_reachable fun _ _ _ he => (made_ofRules rules).exists_mem_label he

end Munch.Nfa

namespace Munch

open Nfa (Builder)

variable {σ α : Type} [Symbol σ] [Ord α]

/-! ## Determinization -/

/-- Some state of the determinized automaton stands for a set that the state is in. -/
def Subsets.Holds (r : Subsets σ α) (i : Nat) : Prop :=
  ∃ id < r.dfa.size, ∃ s, r.set? id = some s ∧ i ∈ s

/-- The sets of the determinized automaton hold the states that some word leads to. -/
theorem Subsets.Faithful.holds_iff {n : Nfa σ α} {r : Subsets σ α} {i : Nat}
    (hr : r.Faithful n) (h : n.WellFormed) : r.Holds i ↔ ∃ word, n.Path n.start word i := by
  constructor
  · rintro ⟨id, -, s, hs, hi⟩
    obtain ⟨word, rfl⟩ := hr.arises hs
    exact ⟨word, h.mem_after.1 hi⟩
  · rintro ⟨word, hp⟩
    obtain ⟨id, hid⟩ := Option.isSome_iff_exists.1 ((hr.state?_isSome_iff h).2 ⟨word, rfl⟩)
    have hset : r.set? id = some (n.after word) := hr.state?_iff.1 hid
    exact ⟨id, hr.set?_isSome_iff.1 (by rw [hset]; rfl), _, hset, h.mem_after.2 hp⟩

/-- Of an automaton that a builder made, whose edges and start name states that exist, the reachable
states are those in the sets of the determinized automaton, and those that some word leads to. -/
theorem Nfa.reachable_agrees {b : Builder σ α} (hb : b.Made) (start : Nat)
    (h : (b.build start).WellFormed) :
    ∃ s r, (b.build start).reachable? = .ok s ∧ (b.build start).determinize = .ok r ∧
      (∀ i, i ∈ s ↔ r.Holds i) ∧
      (∀ i, i ∈ s ↔ ∃ word, i ∈ (b.build start).after word) ∧
      ∀ i, i ∈ s ↔ ∃ word, (b.build start).Path start word i := by
  have hlabels : ∀ i set j, ⟨some set, j⟩ ∈ (b.build start).edges i → ∃ x, x ∈ set :=
    fun i set j he => hb.exists_mem_label he
  have hmem : ∀ i, i ∈ (b.build start).reachable ↔ ∃ word, (b.build start).Path start word i :=
    fun i => h.mem_reachable hlabels
  have hlt : ∀ i ∈ (b.build start).reachable, i < (b.build start).size := by
    intro i hi
    obtain ⟨word, hp⟩ := (hmem i).1 hi
    exact Path.lt h h.1 hp
  obtain ⟨r, hdeterminize, hr⟩ := h.determinize_eq
  refine ⟨_, r, present?_eq hlt, hdeterminize, ?_, ?_, hmem⟩
  · intro i
    rw [hmem, hr.holds_iff h]
    rfl
  · intro i
    rw [hmem]
    exact exists_congr fun word => h.mem_after.symm

/-- A silent cycle that one `a` leads out of, and a state to which no edge was noted, because the set
was empty. -/
def Nfa.cutOff : Builder Char Nat :=
  (((Builder.empty.newState.newState.newState.newState.addSilent 0 1).addSilent 1 0).addTransition
    1 (.only 'a') 2).addTransition 2 .empty 3

theorem Nfa.cutOff_agrees :
    (cutOff.build 0).WellFormed ∧
    ∃ r, (cutOff.build 0).reachable? = .ok (.ofList [0, 1, 2]) ∧
      (cutOff.build 0).determinize = .ok r ∧
      (∀ i, i ∈ StateSet.ofList [0, 1, 2] ↔ r.Holds i) ∧
      ∀ i, i ∈ StateSet.ofList [0, 1, 2] ↔ ∃ word, (cutOff.build 0).Path 0 word i := by
  have hmade : cutOff.Made :=
    (((Builder.Made.empty.newState.newState.newState.newState.addSilent 0 1).addSilent
      1 0).addTransition 1 _ 2).addTransition 2 _ 3
  have hwf : (cutOff.build 0).WellFormed := by decide
  have hreachable : (cutOff.build 0).reachable? = .ok (.ofList [0, 1, 2]) := by rfl
  obtain ⟨s, r, hs, hr, hholds, -, hpath⟩ := reachable_agrees hmade 0 hwf
  cases hreachable.symm.trans hs
  exact ⟨hwf, r, hreachable, hr, hholds, hpath⟩

end Munch
