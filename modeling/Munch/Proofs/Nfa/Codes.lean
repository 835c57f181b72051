-- SUMMARY: Other codes leave the edges, closures and moves of an automaton as they are.
import Munch.Nfa.Moves
import Munch.Nfa.Thompson

/-! # Other codes

Nothing but the codes of states depends on codes, so an automaton that is built
with other codes is the automaton with its codes replaced. -/

namespace Munch.Nfa

variable {σ α β : Type} [Symbol σ]

/-! ## Replacing codes -/

def State.mapCode (f : α → β) (s : State σ α) : State σ β := ⟨s.edges, s.code.map f⟩

/-- The same automaton with other codes. -/
def mapCodes (f : α → β) (n : Nfa σ α) : Nfa σ β := ⟨n.start, n.states.map (State.mapCode f)⟩

section Moves

variable (f : α → β) (n : Nfa σ α)

@[simp] theorem size_mapCodes : (n.mapCodes f).size = n.size := Array.size_map

@[simp] theorem edges_mapCodes : (n.mapCodes f).edges = n.edges := by
  funext id
  show ((n.states.map (State.mapCode f))[id]?.map State.edges).getD [] =
    (n.states[id]?.map State.edges).getD []
  rw [Array.getElem?_map, Option.map_map]
  rfl

@[simp] theorem code?_mapCodes (id : Nat) : (n.mapCodes f).code? id = (n.code? id).map f := by
  show (n.states.map (State.mapCode f))[id]?.bind State.code = (n.states[id]?.bind State.code).map f
  rw [Array.getElem?_map]
  cases n.states[id]? <;> rfl

@[simp] theorem closure_mapCodes : (n.mapCodes f).closure = n.closure := by
  have htargets : (n.mapCodes f).silentTargets = n.silentTargets := by
    funext id
    simp only [silentTargets, edges_mapCodes]
  funext s
  simp only [closure, htargets, size_mapCodes]

@[simp] theorem moves_mapCodes : (n.mapCodes f).moves = n.moves := by
  funext s
  have houtgoing : (n.mapCodes f).outgoing s = n.outgoing s := by
    simp only [outgoing, edges_mapCodes]
  have hdestination : (n.mapCodes f).destination = n.destination := by
    funext edges piece
    simp only [destination, closure_mapCodes]
  simp only [moves, houtgoing, hdestination]

theorem present?_mapCodes (s : StateSet) : (n.mapCodes f).present? s = n.present? s := by
  simp only [present?, size_mapCodes]

theorem closure?_mapCodes (s : StateSet) : (n.mapCodes f).closure? s = n.closure? s := by
  rw [closure?, closure_mapCodes, present?_mapCodes, closure?]

theorem moves?_mapCodes (s : StateSet) : (n.mapCodes f).moves? s = n.moves? s := by
  simp only [moves?, moves_mapCodes, present?_mapCodes]

end Moves

/-! ## The greatest code -/

section Greatest

variable [Ord α] [Ord β] {f : α → β} {P : α → Prop}

/-- Of two codes with the property, the greater one goes to the greater one. -/
def KeepsGreater (f : α → β) (P : α → Prop) : Prop :=
  ∀ a b, P a → P b → f (if (compare b a).isGE then b else a) =
    if (compare (f b) (f a)).isGE then f b else f a

theorem keepsGreater_const (b : β) : KeepsGreater (fun _ : α => b) P := by
  intro a a' _ _
  exact (ite_self b).symm

/-- A monotone function keeps the greater one, since equal codes are interchangeable. -/
theorem keepsGreater_of_monotone [Std.OrientedOrd α] [Std.OrientedOrd β] [Std.LawfulEqOrd β]
    (hf : ∀ a b, P a → P b → (compare a b).isLE → (compare (f a) (f b)).isLE) :
    KeepsGreater f P := by
  intro a b ha hb
  by_cases hge : (compare b a).isGE
  · have hle := hf a b ha hb (Std.OrientedCmp.isGE_iff_isLE.1 hge)
    rw [if_pos hge, if_pos (Std.OrientedCmp.isGE_iff_isLE.2 hle)]
  · have hle : (compare b a).isLE := by
      cases h : compare b a <;> simp_all
    rw [if_neg hge]
    by_cases hge' : (compare (f b) (f a)).isGE
    · have hle' := Std.OrientedCmp.isGE_iff_isLE.1 hge'
      rw [if_pos hge']
      exact Std.LawfulEqOrd.eq_of_compare
        (Std.OrientedCmp.isLE_antisymm hle' (hf b a hb ha hle))
    · rw [if_neg hge']

theorem KeepsGreater.greatest_map (hf : KeepsGreater f P) {codes : List α}
    (hcodes : ∀ c ∈ codes, P c) : greatest (codes.map f) = (greatest codes).map f := by
  cases codes with
  | nil => rfl
  | cons c codes =>
    obtain ⟨hc, hrest⟩ := List.forall_mem_cons.1 hcodes
    rw [List.map_cons, greatest, greatest, Option.map_some]
    congr 1
    -- The best code so far has the property as well.
    induction codes generalizing c with
    | nil => rfl
    | cons d codes ih =>
      obtain ⟨hd, hrest⟩ := List.forall_mem_cons.1 hrest
      rw [List.map_cons, List.foldl_cons, List.foldl_cons, ← hf c d hc hd]
      have hbest : P (if (compare d c).isGE then d else c) := by
        split
        · exact hd
        · exact hc
      exact ih _ (List.forall_mem_cons.2 ⟨hbest, hrest⟩) hbest hrest

theorem codeOf_mapCodes {n : Nfa σ α} (hf : KeepsGreater f fun c => ∃ id, n.code? id = some c)
    (s : StateSet) : (n.mapCodes f).codeOf s = (n.codeOf s).map f := by
  have hmap : s.ids.filterMap (n.mapCodes f).code? = (s.ids.filterMap n.code?).map f := by
    rw [List.map_filterMap]
    congr 1
    funext id
    exact code?_mapCodes f n id
  rw [codeOf, codeOf, hmap]
  refine hf.greatest_map fun c hc => ?_
  obtain ⟨id, -, hid⟩ := List.mem_filterMap.1 hc
  exact ⟨id, hid⟩

theorem codeOf?_mapCodes {n : Nfa σ α} (hf : KeepsGreater f fun c => ∃ id, n.code? id = some c)
    (s : StateSet) : (n.mapCodes f).codeOf? s = Option.map f <$> n.codeOf? s := by
  rw [codeOf?, codeOf?, present?_mapCodes]
  cases n.present? s with
  | error e => rfl
  | ok s => exact congrArg Except.ok (codeOf_mapCodes hf s)

end Greatest

/-! ## Building with other codes -/

namespace Builder

variable (f : α → β) (b : Builder σ α)

def mapCodes (f : α → β) (b : Builder σ α) : Builder σ β := ⟨b.states.map (State.mapCode f)⟩

@[simp] theorem size_mapCodes : (b.mapCodes f).size = b.size := Array.size_map

@[simp] theorem empty_mapCodes : (empty : Builder σ α).mapCodes f = empty := by
  simp [mapCodes, empty]

@[simp] theorem newState_mapCodes : (b.mapCodes f).newState = b.newState.mapCodes f := by
  show Builder.mk _ = Builder.mk _
  rw [newState, Array.map_push]
  rfl

/-- A change of a state that does the same before and after its code is replaced. -/
theorem modify_mapCodes {g : State σ α → State σ α} {g' : State σ β → State σ β}
    (h : ∀ s, g' (s.mapCode f) = (g s).mapCode f) (id : Nat) :
    (b.mapCodes f).modify id g' = (b.modify id g).mapCodes f := by
  show Builder.mk _ = Builder.mk _
  congr 1
  refine Array.ext_getElem? fun i => ?_
  show ((b.states.map (State.mapCode f)).modify id g')[i]? =
    ((b.states.modify id g).map (State.mapCode f))[i]?
  rw [Array.getElem?_modify, Array.getElem?_map, Array.getElem?_map, Array.getElem?_modify]
  split
  · cases b.states[i]? with
    | none => rfl
    | some s => exact congrArg some (h s)
  · rfl

@[simp] theorem addSilent_mapCodes (source target : Nat) :
    (b.mapCodes f).addSilent source target = (b.addSilent source target).mapCodes f :=
  b.modify_mapCodes f (fun _ => rfl) source

@[simp] theorem addTransition_mapCodes (source : Nat) (set : RangeSet σ) (target : Nat) :
    (b.mapCodes f).addTransition source set target =
      (b.addTransition source set target).mapCodes f := by
  rw [addTransition, addTransition]
  split
  · rfl
  · exact b.modify_mapCodes f (fun _ => rfl) source

@[simp] theorem setCode_mapCodes (id : Nat) (c : α) :
    (b.mapCodes f).setCode id (f c) = (b.setCode id c).mapCodes f :=
  b.modify_mapCodes f (fun _ => rfl) id

end Builder

mutual

theorem build_mapCodes (f : α → β) : (b : Builder σ α) → (fragment : Fragment σ) →
    fragment.build (b.mapCodes f) =
      ((fragment.build b).1.mapCodes f, (fragment.build b).2)
  | b, .nothing => by simp [Fragment.build]
  | b, .emptyString => by simp [Fragment.build]
  | b, .oneOf set => by simp [Fragment.build]
  | b, .sequence items => by
    simp [Fragment.build, buildChain_mapCodes f b.newState b.size items]
  | b, .alternative items => by
    simp [Fragment.build, buildBranches_mapCodes f b.newState.newState _ items]
  | b, .optRep body optional repeating => by
    cases optional <;> cases repeating <;>
      simp [Fragment.build, build_mapCodes f b.newState body]

theorem buildChain_mapCodes (f : α → β) : (b : Builder σ α) → (last : Nat) →
    (items : List (Fragment σ)) → Fragment.buildChain (b.mapCodes f) last items =
      ((Fragment.buildChain b last items).1.mapCodes f, (Fragment.buildChain b last items).2)
  | b, last, [] => rfl
  | b, last, item :: items => by
    simp [Fragment.buildChain, build_mapCodes f b item, buildChain_mapCodes f _ _ items]

theorem buildBranches_mapCodes (f : α → β) : (b : Builder σ α) → (outer : Ends) →
    (items : List (Fragment σ)) → Fragment.buildBranches (b.mapCodes f) outer items =
      (Fragment.buildBranches b outer items).mapCodes f
  | b, outer, [] => rfl
  | b, outer, item :: items => by
    simp [Fragment.buildBranches, build_mapCodes f b item, buildBranches_mapCodes f _ _ items]

end

theorem addRule_mapCodes (f : α → β) (b : Builder σ α) (rule : Fragment σ × α) :
    (b.mapCodes f).addRule (Prod.map id f rule) = (b.addRule rule).mapCodes f := by
  simp [Builder.addRule, build_mapCodes f b rule.1]

/-- Rules with other codes make the same automaton with other codes. -/
theorem ofRules_mapCodes (f : α → β) (rules : List (Fragment σ × α)) :
    ofRules (rules.map (Prod.map id f)) = (ofRules rules).mapCodes f := by
  have hroot : (Builder.empty.newState : Builder σ β) =
      (Builder.empty.newState : Builder σ α).mapCodes f := by
    rw [← Builder.newState_mapCodes, Builder.empty_mapCodes]
  rw [ofRules, List.foldl_map, hroot, List.foldl_hom (Builder.mapCodes f) (addRule_mapCodes f)]
  rfl

/-- No state carries a code but those of the rules, as codes may be taken from these alone. -/
theorem exists_rule_of_code {rules : List (Fragment σ × α)} {i : Nat} {c : α}
    (h : (ofRules rules).code? i = some c) : ∃ rule ∈ rules, rule.2 = c := by
  let own : List (Fragment σ × { c // ∃ rule ∈ rules, rule.2 = c }) :=
    rules.attach.map fun rule => (rule.1.1, ⟨rule.1.2, rule.1, rule.2, rfl⟩)
  have hown : own.map (Prod.map id Subtype.val) = rules := by
    rw [List.map_map]
    exact rules.attach_map_subtype_val
  rw [← hown, ofRules_mapCodes, code?_mapCodes] at h
  obtain ⟨code, -, rfl⟩ := Option.map_eq_some_iff.1 h
  exact code.2

end Munch.Nfa
