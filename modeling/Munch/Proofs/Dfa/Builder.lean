-- SUMMARY: Whatever a builder was asked for, no symbol is in two of the sets that leave a state.
import Munch.Proofs.Dfa.Steps

/-! # Building

A builder is asked for states and transitions, in any order. It compares a new
set with each set that leaves the state, and fails if two of them meet; then it
stays as it was. So after any calls a symbol is in one set at most, and the only
thing that can be wrong with the automaton is a number that no state has. -/

namespace Munch.Dfa.Builder

variable {σ α : Type} [Symbol σ] {b b' : Builder σ α} {start source target : Nat}
  {dead : Option Nat} {set : RangeSet σ}

/-! ## Steps -/

theorem transitions_newState (b : Builder σ α) (code : Option α) (i : Nat) :
    ((b.newState code).build start dead).transitions i = (b.build start dead).transitions i := by
  show ((b.states.push ⟨[], code⟩)[i]?.map State.transitions).getD [] =
    (b.states[i]?.map State.transitions).getD []
  rw [Array.getElem?_push]
  split
  case isTrue hi => simp [hi]
  case isFalse => rfl

theorem code_newState (b : Builder σ α) (code : Option α) (i : Nat) :
    ((b.newState code).build start dead).code i =
      if i = b.size then code else (b.build start dead).code i := by
  show (b.states.push ⟨[], code⟩)[i]?.bind State.code = _
  rw [Array.getElem?_push, size]
  split <;> rfl

theorem addTransition?_eq (hsource : source < b.size) (hset : ∃ x, x ∈ set)
    (hdisj : ∀ t ∈ (b.build start dead).transitions source, t.1.isDisjoint set = true) :
    ∃ b', b.addTransition? source set target = .ok b' ∧ b'.size = b.size ∧
      (∀ i, (b'.build start dead).code i = (b.build start dead).code i) ∧
      ∀ i, (b'.build start dead).transitions i =
        (b.build start dead).transitions i ++ if i = source then [(set, target)] else [] := by
  have hsource' : source < b.states.size := hsource
  obtain ⟨s, hs⟩ : ∃ s, b.states[source]? = some s := ⟨_, Array.getElem?_eq_getElem hsource⟩
  have htrans : (b.build start dead).transitions source = s.transitions := transitions_of_state hs
  have hall : s.transitions.all (·.1.isDisjoint set) = true :=
    List.all_eq_true.2 fun t ht => hdisj t (htrans ▸ ht)
  have hempty : ¬ set.isEmpty = true := by
    simpa using RangeSet.isEmpty_eq_false_iff.2 hset
  refine ⟨⟨b.states.setIfInBounds source ⟨s.transitions ++ [(set, target)], s.code⟩⟩,
    ?_, ?_, ?_, ?_⟩
  · rw [addTransition?, if_neg hempty, hs]
    show (s.addTransition? source set target >>= _) = _
    rw [State.addTransition?, if_neg hempty, if_pos hall]
    rfl
  · exact Array.size_setIfInBounds
  · intro i
    show (b.states.setIfInBounds source _)[i]?.bind State.code = b.states[i]?.bind State.code
    rw [Array.getElem?_setIfInBounds]
    by_cases hi : source = i
    · rw [if_pos hi, if_pos hsource', ← hi, hs]
      rfl
    · rw [if_neg hi]
  · intro i
    show ((b.states.setIfInBounds source _)[i]?.map State.transitions).getD [] =
      (b.states[i]?.map State.transitions).getD [] ++ _
    rw [Array.getElem?_setIfInBounds]
    by_cases hi : i = source
    · rw [if_pos hi.symm, if_pos hsource', if_pos hi, hi, hs]
      rfl
    · rw [if_neg (Ne.symm hi), if_neg hi, List.append_nil]

/-! ### What leaves a state -/

/-- The transitions that leave a state, in the order in which they were added. They are the same
whatever states the automaton starts in and has as its dead one. -/
def transitions (b : Builder σ α) (id : Nat) : List (RangeSet σ × Nat) :=
  (b.build 0 none).transitions id

/-- A set that leaves the state holds a symbol of the set. -/
def Meets (b : Builder σ α) (source : Nat) (set : RangeSet σ) : Prop :=
  ∃ t ∈ b.transitions source, ∃ x ∈ t.1, x ∈ set

/-- `b'` is `b` with a transition added, unless it reads no symbol. -/
structure Records (b b' : Builder σ α) (source : Nat) (set : RangeSet σ) (target : Nat) : Prop where
  size_eq : b'.size = b.size
  transitions_eq : ∀ id, b'.transitions id =
    b.transitions id ++ if id = source ∧ set.isEmpty = false then [(set, target)] else []

theorem isDisjoint_of_not_meets (h : ¬ b.Meets source set) :
    ∀ t ∈ b.transitions source, t.1.isDisjoint set = true :=
  fun t ht => RangeSet.isDisjoint_iff.2 fun x hx hset => h ⟨t, ht, x, hx, hset⟩

theorem addTransition?_of_isEmpty (h : set.isEmpty = true) :
    b.addTransition? source set target = .ok b ∧ b.Records b source set target := by
  refine ⟨if_pos h, rfl, fun id => ?_⟩
  rw [if_neg (by simp [h]), List.append_nil]

theorem addTransition?_of_not_meets (hsource : source < b.size) (h : ¬ b.Meets source set)
    (target : Nat) :
    ∃ b', b.addTransition? source set target = .ok b' ∧ b.Records b' source set target := by
  cases hempty : set.isEmpty with
  | true => exact ⟨b, addTransition?_of_isEmpty hempty⟩
  | false =>
    obtain ⟨b', hok, hsize, -, htransitions⟩ :=
      @addTransition?_eq σ α _ b 0 source target none set hsource
        (RangeSet.isEmpty_eq_false_iff.1 hempty) (isDisjoint_of_not_meets h)
    refine ⟨b', hok, hsize, fun id => (htransitions id).trans ?_⟩
    simp only [and_iff_left hempty]
    rfl

theorem addTransition?_of_meets (hsource : source < b.size) (h : b.Meets source set)
    (target : Nat) : b.addTransition? source set target = .error (.overlap source) := by
  obtain ⟨t, ht, x, hx, hset⟩ := h
  obtain ⟨s, hs⟩ : ∃ s, b.states[source]? = some s := ⟨_, Array.getElem?_eq_getElem hsource⟩
  have htrans : b.transitions source = s.transitions := transitions_of_state hs
  have hempty : ¬ set.isEmpty = true := fun hempty => RangeSet.isEmpty_iff.1 hempty x hset
  have hall : ¬ s.transitions.all (·.1.isDisjoint set) = true := by
    intro hall
    exact RangeSet.isDisjoint_iff.1 (List.all_eq_true.1 hall t (htrans ▸ ht)) x hx hset
  rw [addTransition?, if_neg hempty, hs]
  show (s.addTransition? source set target >>= _) = _
  rw [State.addTransition?, if_neg hempty, if_neg hall]
  rfl

theorem addTransition?_of_le (hsource : b.size ≤ source) (hempty : set.isEmpty = false) :
    b.addTransition? source set target = .error (.noSuchState source) := by
  rw [addTransition?, if_neg (by simp [hempty]), Array.getElem?_eq_none hsource]

/-! ## Calls -/

inductive Call (σ α : Type) [Symbol σ] where
  | newState (code : Option α)
  | addTransition (source : Nat) (set : RangeSet σ) (target : Nat)

def call? (b : Builder σ α) : Call σ α → Except (Fault σ) (Builder σ α)
  | .newState code => .ok (b.newState code)
  | .addTransition source set target => b.addTransition? source set target

/-- The builder after a call. One that fails leaves it as it was. -/
def call (b : Builder σ α) (c : Call σ α) : Builder σ α :=
  match b.call? c with
  | .ok b' => b'
  | .error _ => b

/-- What a new builder is after some calls. -/
def after (calls : List (Call σ α)) : Builder σ α := calls.foldl call empty

/-- A call makes a state, or it records a transition whose set meets none that is there, or nothing
happens. -/
theorem call_cases (b : Builder σ α) (c : Call σ α) :
    (∃ code, b.call c = b.newState code) ∨
    (∃ source set target, ¬ b.Meets source set ∧ b.Records (b.call c) source set target) ∨
    b.call c = b := by
  cases c with
  | newState code => exact .inl ⟨code, rfl⟩
  | addTransition source set target =>
    have hok : ∀ {b'}, b.addTransition? source set target = .ok b' →
        b.call (.addTransition source set target) = b' := by
      intro b' h
      rw [call, call?, h]
    have herror : ∀ {f}, b.addTransition? source set target = .error f →
        b.call (.addTransition source set target) = b := by
      intro f h
      rw [call, call?, h]
    by_cases hsource : source < b.size
    · by_cases hmeets : b.Meets source set
      · exact .inr (.inr (herror (addTransition?_of_meets hsource hmeets target)))
      · obtain ⟨b', h, hrecords⟩ := addTransition?_of_not_meets hsource hmeets target
        refine .inr (.inl ⟨source, set, target, hmeets, ?_⟩)
        rwa [hok h]
    · cases hempty : set.isEmpty with
      | true => exact .inr (.inr (hok (addTransition?_of_isEmpty hempty).1))
      | false => exact .inr (.inr (herror (addTransition?_of_le (Nat.le_of_not_lt hsource) hempty)))

/-! ## Determinism -/

/-- Every set that leaves a state has a symbol, and no symbol is in two of them. -/
structure Deterministic (b : Builder σ α) : Prop where
  nonempty : ∀ id, ∀ t ∈ b.transitions id, ∃ x, x ∈ t.1
  disjoint : ∀ id, (b.transitions id).Pairwise fun t u => ∀ x ∈ t.1, ¬ x ∈ u.1

namespace Deterministic

theorem empty : (empty : Builder σ α).Deterministic where
  nonempty id t ht := by cases ht
  disjoint id := .nil

theorem newState (h : b.Deterministic) (code : Option α) : (b.newState code).Deterministic where
  nonempty id := by
    rw [transitions, transitions_newState]
    exact h.nonempty id
  disjoint id := by
    rw [transitions, transitions_newState]
    exact h.disjoint id

theorem records (h : b.Deterministic) (hmeets : ¬ b.Meets source set)
    (hb' : b.Records b' source set target) : b'.Deterministic where
  nonempty id t ht := by
    rw [hb'.transitions_eq] at ht
    rcases List.mem_append.1 ht with ht | ht
    · exact h.nonempty id t ht
    · split at ht
      case isTrue hnew =>
        rw [List.mem_singleton.1 ht]
        exact RangeSet.isEmpty_eq_false_iff.1 hnew.2
      case isFalse => cases ht
  disjoint id := by
    rw [hb'.transitions_eq]
    split
    case isTrue hnew =>
      refine List.pairwise_append.2 ⟨h.disjoint id, List.pairwise_singleton _ _, ?_⟩
      intro t ht u hu x hx hxu
      rw [List.mem_singleton.1 hu] at hxu
      exact hmeets ⟨t, hnew.1 ▸ ht, x, hx, hxu⟩
    case isFalse =>
      rw [List.append_nil]
      exact h.disjoint id

theorem call (h : b.Deterministic) (c : Call σ α) : (b.call c).Deterministic := by
  rcases b.call_cases c with ⟨code, hcall⟩ | ⟨source, set, target, hmeets, hrecords⟩ | hcall
  · rw [hcall]
    exact h.newState code
  · exact h.records hmeets hrecords
  · rw [hcall]
    exact h

theorem isDisjoint (h : b.Deterministic) (id : Nat) :
    (b.transitions id).Pairwise fun t u => t.1.isDisjoint u.1 = true :=
  (h.disjoint id).imp RangeSet.isDisjoint_iff.2

/-- Nothing but a missing state can be wrong with the automaton. -/
theorem wellFormed_iff (h : b.Deterministic) (start : Nat) (dead : Option Nat) :
    (b.build start dead).WellFormed ↔ start < b.size ∧ (∀ id ∈ dead, id < b.size) ∧
      ∀ id, ∀ t ∈ b.transitions id, t.2 < b.size := by
  constructor
  · intro hwf
    exact ⟨hwf.1, hwf.2.1, fun id t ht => hwf.transitions_lt ht⟩
  · rintro ⟨hstart, hdead, htargets⟩
    refine ⟨hstart, hdead, fun s hs => ?_⟩
    obtain ⟨id, hid, hs⟩ := Array.mem_iff_getElem.1 (Array.mem_toList_iff.1 hs)
    have htrans : b.transitions id = s.transitions :=
      transitions_of_state (Array.getElem?_eq_some_iff.2 ⟨hid, hs⟩)
    rw [← htrans]
    exact ⟨htargets id, h.isDisjoint id⟩

end Deterministic

theorem deterministic_after (calls : List (Call σ α)) : (after calls).Deterministic :=
  List.foldlRecOn calls call .empty fun _ hb c _ => hb.call c

/-- After any calls, failed ones among them, the sets that leave a state have symbols and do not
meet. A transition from a state that exists is refused exactly if its set meets one of them, and is
recorded otherwise. The automaton is well formed exactly if the states that it names exist, and each
step is the transition that holds the symbol, of which there is one at most. -/
theorem calls_keep_deterministic (calls : List (Call σ α)) :
    (after calls).Deterministic ∧
    (∀ source < (after calls).size, ∀ set target,
      (∀ f, (after calls).addTransition? source set target = .error f ↔
        (after calls).Meets source set ∧ f = .overlap source) ∧
      ∀ b', (after calls).addTransition? source set target = .ok b' →
        (after calls).Records b' source set target) ∧
    ∀ start dead,
      (((after calls).build start dead).WellFormed ↔ start < (after calls).size ∧
        (∀ id ∈ dead, id < (after calls).size) ∧
        ∀ id, ∀ t ∈ (after calls).transitions id, t.2 < (after calls).size) ∧
      ∀ id < (after calls).size, ∀ x, ∃ hit : Option (RangeSet σ × Nat),
        ((after calls).transitions id).filter (·.1.contains x) = hit.toList ∧
        ((after calls).build start dead).next? id x = .ok (hit.map Prod.snd) := by
  have h := deterministic_after calls
  refine ⟨h, fun source hsource set target => ?_, fun start dead => ?_⟩
  · by_cases hmeets : (after calls).Meets source set
    · rw [addTransition?_of_meets hsource hmeets target]
      refine ⟨fun f => ?_, nofun⟩
      rw [and_iff_right hmeets, Except.error.injEq]
      exact eq_comm
    · obtain ⟨b', hok, hrecords⟩ := addTransition?_of_not_meets hsource hmeets target
      rw [hok]
      refine ⟨fun f => iff_of_false nofun fun hf => hmeets hf.1, fun b'' hok' => ?_⟩
      cases hok'
      exact hrecords
  · refine ⟨h.wellFormed_iff start dead, fun id hid x => ?_⟩
    exact ⟨_, filter_contains (h.isDisjoint id) x, next?_eq_of_disjoint hid (h.isDisjoint id) x⟩

/-- Two states with a transition between them. The other one overlaps it, and leaves a state that
does not exist as well. -/
def overlapping : List (Call Char Nat) :=
  [.newState none, .newState (some 7), .addTransition 0 (.range 'a' 'm') 1,
    .addTransition 0 (.range 'k' 'z') 0, .addTransition 2 (.range 'k' 'z') 0]

theorem overlapping_keep_deterministic : (after overlapping).Deterministic ∧
    (after overlapping).transitions 0 = [(.range 'a' 'm', 1)] ∧
    (after overlapping).addTransition? 0 (.only 'm') 1 = .error (.overlap 0) ∧
    ((after overlapping).build 0 none).WellFormed ∧
    ∃ hit, [(RangeSet.range 'a' 'm', 1)].filter (·.1.contains 'c') = Option.toList hit ∧
      ((after overlapping).build 0 none).next? 0 'c' = .ok (hit.map Prod.snd) := by
  have htransitions : (after overlapping).transitions 0 = [(.range 'a' 'm', 1)] := by
    decide +kernel
  have hwf : ((after overlapping).build 0 none).WellFormed := by decide +kernel
  have hsource : 0 < (after overlapping).size := by decide +kernel
  obtain ⟨hdet, hadd, hbuilt⟩ := calls_keep_deterministic overlapping
  refine ⟨hdet, htransitions, ((hadd 0 hsource _ 1).1 _).2 ⟨?_, rfl⟩, hwf, ?_⟩
  · rw [Meets, htransitions]
    exact ⟨_, List.mem_singleton_self _, 'm', by decide +kernel, by decide +kernel⟩
  · rw [← htransitions]
    exact (hbuilt 0 none).2 0 hsource 'c'

end Munch.Dfa.Builder
