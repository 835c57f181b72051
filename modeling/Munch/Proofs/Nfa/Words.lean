-- SUMMARY: The states after a word are those that a path with that word leads to.
import Munch.Nfa.Word
import Munch.Proofs.StateSet

/-! # Paths and sets of states

A set is closed if no silent edge leads out of it. In a closed set a word may
be read symbol by symbol, and what it leads to is where the paths with that
word end. -/

namespace Munch.Nfa

variable {σ α : Type} [Symbol σ] {n : Nfa σ α} {s : StateSet} {i j k : Nat} {x : σ}
  {word rest : List σ}

/-! ## Paths -/

theorem edges_of_state {q : State σ α} (h : n.states[i]? = some q) : n.edges i = q.edges := by
  simp [edges, h]

theorem WellFormed.target_lt (h : n.WellFormed) {e : Edge σ} (he : e ∈ n.edges i) :
    e.target < n.size := by
  cases hq : n.states[i]? with
  | none => simp [edges, hq] at he
  | some q =>
    rw [edges_of_state hq] at he
    exact h.2 q (Array.mem_toList_iff.2 (Array.mem_of_getElem? hq)) e he

namespace Trail

variable {edge edge' : Edges σ}

theorem append (hp : Trail edge i word j) (hq : Trail edge j rest k) :
    Trail edge i (word ++ rest) k := by
  induction hp with
  | stay => exact hq
  | silent he _ ih => exact .silent he (ih hq)
  | read he hx _ ih => exact .read he hx (ih hq)

theorem mono (hsub : ∀ i label j, edge i label j → edge' i label j) (hp : Trail edge i word j) :
    Trail edge' i word j := by
  induction hp with
  | stay => exact .stay _
  | silent he _ ih => exact .silent (hsub _ _ _ he) ih
  | read he hx _ ih => exact .read (hsub _ _ _ he) hx ih

/-- A trail that reads something takes silent edges first. -/
theorem first_read (hp : Trail edge i (x :: word) j) :
    ∃ k set target, Trail edge i [] k ∧ edge k (some set) target ∧ x ∈ set ∧
      Trail edge target word j := by
  generalize hw : x :: word = w at hp
  induction hp with
  | stay => cases hw
  | silent he _ ih =>
    obtain ⟨k, set, target, hk, hread, hx, hrest⟩ := ih hw
    exact ⟨k, set, target, .silent he hk, hread, hx, hrest⟩
  | read he hx hrest =>
    cases hw
    exact ⟨_, _, _, .stay _, he, hx, hrest⟩

end Trail

theorem Path.lt (h : n.WellFormed) (hi : i < n.size) (hp : n.Path i word j) : j < n.size := by
  induction hp with
  | stay => exact hi
  | silent he _ ih => exact ih (h.target_lt he)
  | read he _ _ ih => exact ih (h.target_lt he)

/-- No edge leads to a missing state, so a path that ends in one stays where it is. -/
theorem Path.lt_or_eq (h : n.WellFormed) (hp : n.Path i word j) :
    j < n.size ∨ j = i := by
  cases hp with
  | stay => exact .inr rfl
  | silent he hp => exact .inl (Path.lt h (h.target_lt he) hp)
  | read he _ hp => exact .inl (Path.lt h (h.target_lt he) hp)

/-! ## Closed sets -/

/-- No silent edge leads out of the set. -/
def Closed (n : Nfa σ α) (s : StateSet) : Prop :=
  ∀ i ∈ s, ∀ j, ⟨none, j⟩ ∈ n.edges i → j ∈ s

theorem Closed.mem_of_path (hs : n.Closed s) (hi : i ∈ s) (hp : n.Path i [] j) : j ∈ s := by
  generalize hw : [] = w at hp
  induction hp with
  | stay => exact hi
  | silent he _ ih => exact ih (hs _ hi _ he) hw
  | read => cases hw

theorem mem_silentTargets : j ∈ n.silentTargets i ↔ ⟨none, j⟩ ∈ n.edges i := by
  rw [silentTargets, List.mem_map]
  constructor
  · rintro ⟨⟨label, target⟩, he, rfl⟩
    obtain ⟨he, hlabel⟩ := List.mem_filter.1 he
    cases Option.isNone_iff_eq_none.1 hlabel
    exact he
  · intro he
    exact ⟨_, List.mem_filter.2 ⟨he, rfl⟩, rfl⟩

theorem WellFormed.closure_closed (h : n.WellFormed) (s : StateSet) : n.Closed (n.closure s) := by
  have hnext : ∀ i, ∀ j ∈ n.silentTargets i, j < n.size := by
    intro i j hj
    exact h.target_lt (mem_silentTargets.1 hj)
  have hlevels := StateSet.length_missing_le n.size s
  intro i hi j hj
  exact StateSet.reach_closed hnext hlevels (fun _ => .inl) i hi j (mem_silentTargets.2 hj)

theorem WellFormed.mem_closure (h : n.WellFormed) : j ∈ n.closure s ↔ ∃ i ∈ s, n.Path i [] j := by
  constructor
  · have hbase : ∀ i ∈ s, ∃ i' ∈ s, n.Path i' [] i := fun i hi => ⟨i, hi, .stay i⟩
    refine StateSet.reach_induction (P := fun j => ∃ i ∈ s, n.Path i [] j) ?_ hbase hbase j
    rintro k ⟨i, hi, hik⟩ j hkj
    exact ⟨i, hi, hik.append (.silent (mem_silentTargets.1 hkj) (.stay j))⟩
  · rintro ⟨i, hi, hp⟩
    exact (h.closure_closed s).mem_of_path (StateSet.mem_reach_of_mem hi) hp

theorem WellFormed.closure_lt (h : n.WellFormed) (hs : ∀ i ∈ s, i < n.size) :
    ∀ i ∈ n.closure s, i < n.size := by
  intro j hj
  obtain ⟨i, hi, hp⟩ := h.mem_closure.1 hj
  exact Path.lt h (hs i hi) hp

/-! ## Words -/

theorem mem_outgoing {e : RangeSet σ × Nat} :
    e ∈ n.outgoing s ↔ ∃ i ∈ s, ⟨some e.1, e.2⟩ ∈ n.edges i := by
  simp only [outgoing, List.mem_flatMap, List.mem_filterMap, Option.map_eq_some_iff]
  constructor
  · rintro ⟨i, hi, ⟨label, target⟩, he, set, rfl, rfl⟩
    exact ⟨i, hi, he⟩
  · rintro ⟨i, hi, he⟩
    exact ⟨i, hi, _, he, e.1, rfl, rfl⟩

/-- Some edge from the set reads the symbol and has the target. -/
def LeadsTo (n : Nfa σ α) (s : StateSet) (x : σ) (target : Nat) : Prop :=
  ∃ i ∈ s, ∃ set, ⟨some set, target⟩ ∈ n.edges i ∧ x ∈ set

theorem mem_targets :
    j ∈ StateSet.ofList (((n.outgoing s).filter (·.1.contains x)).map Prod.snd) ↔
      n.LeadsTo s x j := by
  simp only [StateSet.mem_ofList, List.mem_map, List.mem_filter, mem_outgoing, LeadsTo]
  constructor
  · rintro ⟨e, ⟨⟨i, hi, he⟩, hx⟩, rfl⟩
    exact ⟨i, hi, e.1, he, hx⟩
  · rintro ⟨i, hi, set, he, hx⟩
    exact ⟨(set, j), ⟨⟨i, hi, he⟩, hx⟩, rfl⟩

theorem WellFormed.mem_step (h : n.WellFormed) :
    j ∈ n.step s x ↔ ∃ target, n.LeadsTo s x target ∧ n.Path target [] j := by
  simp only [step, h.mem_closure, mem_targets]

theorem WellFormed.mem_foldl_step (h : n.WellFormed) (hs : n.Closed s) :
    j ∈ word.foldl n.step s ↔ ∃ i ∈ s, n.Path i word j := by
  induction word generalizing s with
  | nil =>
    constructor
    · intro hj
      exact ⟨j, hj, .stay j⟩
    · rintro ⟨i, hi, hp⟩
      exact hs.mem_of_path hi hp
  | cons x word ih =>
    have hclosed : n.Closed (n.step s x) := h.closure_closed _
    rw [List.foldl_cons, ih hclosed]
    constructor
    · rintro ⟨k, hk, hp⟩
      obtain ⟨target, ⟨i, hi, set, he, hx⟩, htarget⟩ := h.mem_step.1 hk
      exact ⟨i, hi, .read he hx (htarget.append hp)⟩
    · rintro ⟨i, hi, hp⟩
      obtain ⟨k, set, target, hk, he, hx, hrest⟩ := hp.first_read
      have htarget : target ∈ n.step s x :=
        h.mem_step.2 ⟨target, ⟨k, hs.mem_of_path hi hk, set, he, hx⟩, .stay target⟩
      exact ⟨target, htarget, hrest⟩

theorem WellFormed.mem_after (h : n.WellFormed) : j ∈ n.after word ↔ n.Path n.start word j := by
  rw [after, h.mem_foldl_step (h.closure_closed _)]
  constructor
  · rintro ⟨i, hi, hp⟩
    obtain ⟨k, hk, hki⟩ := h.mem_closure.1 hi
    rw [StateSet.mem_singleton.1 hk] at hki
    exact hki.append hp
  · intro hp
    exact ⟨n.start, h.mem_closure.2 ⟨_, StateSet.mem_singleton.2 rfl, .stay _⟩, hp⟩

theorem WellFormed.after_lt (h : n.WellFormed) (word : List σ) : ∀ i ∈ n.after word, i < n.size :=
  fun _ hi => Path.lt h h.1 (h.mem_after.1 hi)

theorem after_append (n : Nfa σ α) (u v : List σ) : n.after (u ++ v) = v.foldl n.step (n.after u) :=
  List.foldl_append

end Munch.Nfa
