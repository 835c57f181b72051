-- SUMMARY: Other codes make no difference to the subset construction, if they keep the greater of two.
import Munch.Dfa.Subset
import Munch.Proofs.Checked
import Munch.Proofs.Nfa.Codes

/-! # The subset construction under other codes

The construction takes the same steps whatever the codes are. It only has to
make no difference whether the greatest code of a set is found before or after
the codes are replaced. -/

namespace Munch

variable {σ α β : Type} [Symbol σ]

/-! ## Building -/

namespace Dfa

def State.mapCode (f : α → β) (s : State σ α) : State σ β := ⟨s.transitions, s.code.map f⟩

theorem State.addTransition?_mapCode (f : α → β) (s : State σ α) (source : Nat)
    (set : RangeSet σ) (target : Nat) : (s.mapCode f).addTransition? source set target =
      State.mapCode f <$> s.addTransition? source set target := by
  rw [addTransition?, addTransition?]
  split
  · rfl
  · show (if s.transitions.all _ then _ else _) = _
    split <;> rfl

theorem mapCodes_mapCodes {γ : Type} (g : β → γ) (f : α → β) (d : Dfa σ α) :
    (d.mapCodes f).mapCodes g = d.mapCodes (g ∘ f) := by
  simp [Dfa.mapCodes, Function.comp_def]

namespace Builder

def mapCodes (f : α → β) (b : Builder σ α) : Builder σ β := ⟨b.states.map (State.mapCode f)⟩

variable (f : α → β) (b : Builder σ α)

@[simp] theorem empty_mapCodes : (empty : Builder σ α).mapCodes f = empty := by
  simp [mapCodes, empty]

@[simp] theorem size_mapCodes : (b.mapCodes f).size = b.size := Array.size_map

theorem newState_mapCodes (code : Option α) :
    (b.mapCodes f).newState (code.map f) = (b.newState code).mapCodes f := by
  show Builder.mk _ = Builder.mk _
  rw [newState, Array.map_push]
  rfl

theorem addTransition?_mapCodes (source : Nat) (set : RangeSet σ) (target : Nat) :
    (b.mapCodes f).addTransition? source set target =
      mapCodes f <$> b.addTransition? source set target := by
  rw [addTransition?, addTransition?]
  split
  · rfl
  · have hstate : (b.mapCodes f).states[source]? = b.states[source]?.map (State.mapCode f) :=
      Array.getElem?_map
    rw [hstate]
    cases b.states[source]? with
    | none => rfl
    | some s =>
      show ((s.mapCode f).addTransition? source set target >>= _) = _
      rw [s.addTransition?_mapCode]
      show _ = mapCodes f <$> (s.addTransition? source set target >>= _)
      cases s.addTransition? source set target with
      | error e => rfl
      | ok s =>
        refine congrArg (Except.ok ∘ Builder.mk) ?_
        exact (Array.map_setIfInBounds ..).symm

end Builder

end Dfa

/-! ## Exploring -/

namespace Nfa.Search

variable {f : α → β} {n : Nfa σ α} {q : Search σ α} {s : StateSet}

/-- The same state of the construction with other codes. -/
def mapCodes (f : α → β) (q : Search σ α) : Search σ β :=
  ⟨q.builder.mapCodes f, q.sets, q.numbers, q.pending, q.dead, q.queue⟩

theorem enter_mapCodes (code : Option α) :
    (q.mapCodes f).enter s (code.map f) = (q.enter s code).mapCodes f := by
  simp only [enter, mapCodes, Dfa.Builder.newState_mapCodes, Dfa.Builder.size_mapCodes]

theorem link?_mapCodes (e : Parked σ) : (q.mapCodes f).link? e = mapCodes f <$> q.link? e := by
  have hnumber : (q.mapCodes f).number? e.destination = q.number? e.destination := rfl
  rw [link?, link?, hnumber]
  cases q.number? e.destination with
  | none => rfl
  | some target =>
    show ((q.builder.mapCodes f).addTransition? e.source e.set target >>= _) = _
    rw [Dfa.Builder.addTransition?_mapCodes]
    show _ = mapCodes f <$> (q.builder.addTransition? e.source e.set target >>= _)
    cases q.builder.addTransition? e.source e.set target <;> rfl

theorem foldlM_link?_mapCodes (hand : List (Parked σ)) :
    hand.foldlM link? (q.mapCodes f) = mapCodes f <$> hand.foldlM link? q :=
  Checked.foldlM_hom (mapCodes f) fun _ => link?_mapCodes

variable [Ord α] [Ord β] (hf : KeepsGreater f fun c => ∃ id, n.code? id = some c)

include hf

theorem explore?_mapCodes (q : Search σ α) (s : StateSet) :
    (q.mapCodes f).explore? (n.mapCodes f) s = mapCodes f <$> q.explore? n s := by
  simp only [explore?, codeOf?_mapCodes hf, moves?_mapCodes, bind_map_left, map_bind]
  refine bind_congr fun code => ?_
  have hwaiting : (q.mapCodes f).waiting s = q.waiting s := rfl
  rw [enter_mapCodes, hwaiting, foldlM_link?_mapCodes, bind_map_left]
  refine bind_congr fun linked => ?_
  split
  · rfl
  · have hsize : (q.mapCodes f).builder.size = q.builder.size := q.builder.size_mapCodes f
    rw [map_bind, hsize]
    exact bind_congr fun moves => foldlM_link?_mapCodes _

omit hf in
theorem run?_nil (hqueue : q.queue = []) : run? n q = .ok q := by
  rw [run?]
  split
  · rfl
  · simp_all

omit hf in
theorem run?_cons {rest : List StateSet} (hqueue : q.queue = s :: rest) :
    run? n q = if (q.number? s).isSome then run? n { q with queue := rest }
      else explore? n { q with queue := rest } s >>= run? n := by
  rw [run?]
  split
  · simp_all
  · next s' rest' h =>
    cases hqueue.symm.trans h
    split
    · rfl
    · split
      · next f hf => rw [hf]; rfl
      · next q' hf => rw [hf]; rfl

theorem run?_mapCodes (q : Search σ α) :
    run? (n.mapCodes f) (q.mapCodes f) = mapCodes f <$> run? n q := by
  fun_induction run? n q with
  | case1 q hqueue => exact run?_nil hqueue
  | case2 q s rest hqueue hs ih =>
    rw [run?_cons (q := q.mapCodes f) hqueue]
    exact (if_pos hs).trans ih
  | case3 q s rest hqueue hs e he =>
    have hexplore := explore?_mapCodes hf { q with queue := rest } s
    rw [he] at hexplore
    rw [run?_cons (q := q.mapCodes f) hqueue]
    exact (if_neg hs).trans (congrArg (· >>= run? (n.mapCodes f)) hexplore)
  | case4 q s rest hqueue hs q' hq' ih =>
    have hexplore := explore?_mapCodes hf { q with queue := rest } s
    rw [hq'] at hexplore
    rw [run?_cons (q := q.mapCodes f) hqueue]
    exact ((if_neg hs).trans (congrArg (· >>= run? (n.mapCodes f)) hexplore)).trans ih

end Nfa.Search

/-! ## The result -/

def Subsets.mapCodes (f : α → β) (r : Subsets σ α) : Subsets σ β :=
  ⟨r.dfa.mapCodes f, r.sets, r.numbers⟩

/-- Codes may be replaced before or after the construction. -/
theorem Nfa.determinize_mapCodes [Ord α] [Ord β] {f : α → β} {n : Nfa σ α}
    (hf : KeepsGreater f fun c => ∃ id, n.code? id = some c) :
    (n.mapCodes f).determinize = Subsets.mapCodes f <$> n.determinize := by
  have hinit : ∀ s, (Search.init s : Search σ β) = (Search.init s).mapCodes f := by
    intro s
    simp [Search.init, Search.mapCodes]
  have hstart : (n.mapCodes f).start = n.start := rfl
  simp only [determinize, search?, closure?_mapCodes, hstart, hinit, Search.run?_mapCodes hf,
    map_bind, Functor.map_map]
  rfl

end Munch
