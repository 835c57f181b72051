-- SUMMARY: A well-formed automaton has no faults: its steps, runs and longest match are total.
import Munch.Dfa.Word
import Munch.Proofs.Checked
import Munch.Proofs.RangeSet.Atoms

/-! # Steps of well-formed automata

In a well-formed automaton nothing that starts from an existing state is a
fault. The total functions here say what the checked operations give then. The
longest match is read off the codes that the beginnings of the input end on. -/

namespace Munch.Dfa

open RangeSet (Labels isDisjoint_iff labels_of_find?)

variable {σ α : Type} [Symbol σ] {d : Dfa σ α} {id : Nat}

/-! ## Total functions -/

def transitions (d : Dfa σ α) (id : Nat) : List (RangeSet σ × Nat) :=
  (d.states[id]?.map State.transitions).getD []

def code (d : Dfa σ α) (id : Nat) : Option α := d.states[id]?.bind State.code

/-- The state that a symbol leads to, if there is one. -/
def next (d : Dfa σ α) (id : Nat) (x : σ) : Option Nat :=
  ((d.transitions id).find? (·.1.contains x)).map Prod.snd

/-- The state that a word leads to, if there is one. -/
def run (d : Dfa σ α) (id : Nat) : List σ → Option Nat
  | [] => some id
  | x :: rest => (d.next id x).bind fun target => d.run target rest

/-- The code that a word ends on. -/
def codeAfter (d : Dfa σ α) (id : Nat) (word : List σ) : Option α := (d.run id word).bind d.code

theorem transitions_of_state {s : State σ α} (h : d.states[id]? = some s) :
    d.transitions id = s.transitions := by
  simp [transitions, h]

theorem code_of_state {s : State σ α} (h : d.states[id]? = some s) : d.code id = s.code := by
  simp [code, h]

theorem exists_state (hid : id < d.size) : ∃ s, d.states[id]? = some s :=
  ⟨d.states[id], Array.getElem?_eq_getElem hid⟩

theorem transitions?_eq (hid : id < d.size) : d.transitions? id = .ok (d.transitions id) := by
  obtain ⟨s, hs⟩ := exists_state hid
  rw [transitions_of_state hs, transitions?, state?, hs]
  rfl

theorem code?_eq (hid : id < d.size) : d.code? id = .ok (d.code id) := by
  obtain ⟨s, hs⟩ := exists_state hid
  rw [code_of_state hs, code?, state?, hs]
  rfl

/-! ## Steps -/

/-- Of sets that do not meet at most one holds a symbol. -/
theorem filter_contains {entries : List (RangeSet σ × Nat)}
    (hdisj : entries.Pairwise fun t u => t.1.isDisjoint u.1 = true) (x : σ) :
    entries.filter (·.1.contains x) = (entries.find? (·.1.contains x)).toList := by
  rw [← List.head?_filter]
  have hdisj := hdisj.filter fun t : RangeSet σ × Nat => t.1.contains x
  have hmem : ∀ t ∈ entries.filter (·.1.contains x), x ∈ t.1 :=
    fun t ht => (List.mem_filter.1 ht).2
  rcases hl : entries.filter (·.1.contains x) with _ | ⟨t, _ | ⟨u, rest⟩⟩
  · rw [hl]; rfl
  · rw [hl]; rfl
  · rw [hl] at hdisj hmem
    have htu := List.rel_of_pairwise_cons hdisj List.mem_cons_self
    exact absurd (hmem u (by simp)) (isDisjoint_iff.1 htu x (hmem t (by simp)))

/-- A step is no fault if the sets that leave the state do not meet. -/
theorem next?_eq_of_disjoint (hid : id < d.size)
    (hdisj : (d.transitions id).Pairwise fun t u => t.1.isDisjoint u.1 = true) (x : σ) :
    d.next? id x = .ok (d.next id x) := by
  rw [next?, transitions?_eq hid, Checked.ok_bind, filter_contains hdisj, next]
  cases (d.transitions id).find? (·.1.contains x) <;> rfl

namespace WellFormed

theorem transitions_lt (h : d.WellFormed) {t : RangeSet σ × Nat} (ht : t ∈ d.transitions id) :
    t.2 < d.size := by
  cases hs : d.states[id]? with
  | none => simp [transitions, hs] at ht
  | some s =>
    rw [transitions_of_state hs] at ht
    exact (h.2.2 s (Array.mem_toList_iff.2 (Array.mem_of_getElem? hs))).1 t ht

theorem transitions_disjoint (h : d.WellFormed) (id : Nat) :
    (d.transitions id).Pairwise fun t u => t.1.isDisjoint u.1 = true := by
  cases hs : d.states[id]? with
  | none => simp [transitions, hs]
  | some s =>
    rw [transitions_of_state hs]
    exact (h.2.2 s (Array.mem_toList_iff.2 (Array.mem_of_getElem? hs))).2

/-- At most one transition holds a symbol. -/
theorem filter_transitions (h : d.WellFormed) (id : Nat) (x : σ) :
    (d.transitions id).filter (·.1.contains x) =
      ((d.transitions id).find? (·.1.contains x)).toList :=
  filter_contains (h.transitions_disjoint id) x

theorem next?_eq (h : d.WellFormed) (hid : id < d.size) (x : σ) :
    d.next? id x = .ok (d.next id x) :=
  next?_eq_of_disjoint hid (h.transitions_disjoint id) x

theorem next_eq_some_iff (h : d.WellFormed) {x : σ} {target : Nat} :
    d.next id x = some target ↔ Labels (d.transitions id) x target := by
  constructor
  · intro hnext
    obtain ⟨t, ht, rfl⟩ := Option.map_eq_some_iff.1 hnext
    exact labels_of_find? ht
  · intro hlabels
    cases hfind : (d.transitions id).find? (·.1.contains x) with
    | none =>
      obtain ⟨set, hmem, hx⟩ := hlabels
      exact absurd hx (List.find?_eq_none.1 hfind _ hmem)
    | some t =>
      rw [next, hfind, hlabels.unique (h.transitions_disjoint id) (labels_of_find? hfind)]
      rfl

theorem next_lt (h : d.WellFormed) {x : σ} {target : Nat} (hnext : d.next id x = some target) :
    target < d.size := by
  obtain ⟨set, hmem, -⟩ := h.next_eq_some_iff.1 hnext
  exact h.transitions_lt hmem

end WellFormed

theorem DeadInert.transitions_eq (h : d.DeadInert) (hdead : d.dead = some id) :
    d.transitions id = [] := by
  cases hs : d.states[id]? with
  | none => simp [transitions, hs]
  | some s => rw [transitions_of_state hs]; exact (h id hdead s hs).1

theorem DeadInert.code_eq (h : d.DeadInert) (hdead : d.dead = some id) : d.code id = none := by
  cases hs : d.states[id]? with
  | none => simp [code, hs]
  | some s => rw [code_of_state hs]; exact (h id hdead s hs).2

theorem DeadInert.next_eq (h : d.DeadInert) (hdead : d.dead = some id) (x : σ) :
    d.next id x = none := by
  rw [next, h.transitions_eq hdead]
  rfl

/-! ## Words -/

theorem WellFormed.run?_eq (h : d.WellFormed) (hid : id < d.size) (word : List σ) :
    d.run? id word = .ok (d.run id word) := by
  induction word generalizing id with
  | nil => rfl
  | cons x rest ih =>
    rw [run?, h.next?_eq hid, run]
    cases hnext : d.next id x with
    | none => rfl
    | some target => exact ih (h.next_lt hnext)

theorem WellFormed.run_lt (h : d.WellFormed) {word : List σ} {last : Nat} (hid : id < d.size)
    (hrun : d.run id word = some last) : last < d.size := by
  induction word generalizing id with
  | nil => cases hrun; exact hid
  | cons x rest ih =>
    obtain ⟨target, hnext, hrun⟩ := Option.bind_eq_some_iff.1 hrun
    exact ih (h.next_lt hnext) hrun

theorem run_append (d : Dfa σ α) (id : Nat) (u v : List σ) :
    d.run id (u ++ v) = (d.run id u).bind fun target => d.run target v := by
  induction u generalizing id with
  | nil => rfl
  | cons x rest ih =>
    simp only [List.cons_append, run, Option.bind_assoc]
    congr 1
    funext target
    exact ih target

theorem codeAfter_cons (d : Dfa σ α) (id : Nat) (x : σ) (rest : List σ) :
    d.codeAfter id (x :: rest) = (d.next id x).bind fun target => d.codeAfter target rest :=
  Option.bind_assoc ..

theorem DeadInert.codeAfter_eq (h : d.DeadInert) (hdead : d.dead = some id) (word : List σ) :
    d.codeAfter id word = none := by
  cases word with
  | nil => exact h.code_eq hdead
  | cons x rest => rw [codeAfter_cons, h.next_eq hdead]; rfl

theorem WellFormed.codeAfter?_eq (h : d.WellFormed) (hdead : d.DeadInert) (hid : id < d.size)
    (word : List σ) : d.codeAfter? id word = .ok (d.codeAfter id word) := by
  rw [codeAfter?, h.run?_eq hid, codeAfter]
  cases hrun : d.run id word with
  | none => rfl
  | some target =>
    show (if d.dead = some target then pure none else d.code? target) = _
    split
    case isTrue hd => rw [Option.bind_some, hdead.code_eq hd]; rfl
    case isFalse => exact code?_eq (h.run_lt hid hrun)

/-! ## The longest match -/

/-- The greatest `n ≥ 1` up to `length` at which `f` has a value, with that value. -/
def IsLongest (f : Nat → Option α) (length : Nat) : Option (Nat × α) → Prop
  | some (n, c) => 1 ≤ n ∧ n ≤ length ∧ f n = some c ∧ ∀ k, n < k → k ≤ length → f k = none
  | none => ∀ k, 1 ≤ k → k ≤ length → f k = none

theorem IsLongest.unique {f : Nat → Option α} {length : Nat} {m m' : Option (Nat × α)}
    (h : IsLongest f length m) (h' : IsLongest f length m') : m = m' := by
  match m, m' with
  | none, none => rfl
  | none, some (n, c) =>
    have := h n h'.1 h'.2.1
    rw [h'.2.2.1] at this
    cases this
  | some (n, c), none =>
    have := h' n h.1 h.2.1
    rw [h.2.2.1] at this
    cases this
  | some (n, c), some (n', c') =>
    obtain ⟨-, hn, hf, hmax⟩ := h
    obtain ⟨-, hn', hf', hmax'⟩ := h'
    rcases Nat.lt_trichotomy n n' with hlt | rfl | hlt
    · rw [hmax n' hlt hn'] at hf'; cases hf'
    · rw [hf] at hf'; cases hf'; rfl
    · rw [hmax' n hlt hn] at hf; cases hf

/-- A match that is not the one so far ends behind it, within the input. -/
theorem WellFormed.matchFrom_total (h : d.WellFormed) (hid : id < d.size) (length : Nat)
    (longest : Option (Nat × α)) (input : List σ) :
    ∃ m, d.matchFrom id length longest input = .ok m ∧
      ∀ p ∈ m, p ∈ longest ∨ length < p.1 ∧ p.1 ≤ length + input.length := by
  induction input generalizing id length longest with
  | nil => exact ⟨longest, rfl, fun p hp => .inl hp⟩
  | cons x rest ih =>
    have hstay : ∀ p ∈ longest, p ∈ longest ∨ length < p.1 ∧ p.1 ≤ length + (x :: rest).length :=
      fun p hp => .inl hp
    rw [matchFrom, h.next?_eq hid]
    cases hnext : d.next id x with
    | none => exact ⟨longest, rfl, hstay⟩
    | some target =>
      have htarget := h.next_lt hnext
      show ∃ m, (if d.dead = some target then pure longest else _) = _ ∧ _
      by_cases hd : d.dead = some target
      · exact ⟨longest, if_pos hd, hstay⟩
      · rw [if_neg hd, code?_eq htarget, List.length_cons]
        cases hcode : d.code target with
        | none =>
          obtain ⟨m, hm, hlength⟩ := ih htarget (length + 1) longest
          refine ⟨m, hm, fun p hp => (hlength p hp).imp_right fun hp => ?_⟩
          omega
        | some c =>
          obtain ⟨m, hm, hlength⟩ := ih htarget (length + 1) (some (length + 1, c))
          refine ⟨m, hm, fun p hp => .inr ?_⟩
          rcases hlength p hp with hp | hp
          · obtain rfl : (length + 1, c) = p := Option.some.inj hp
            exact ⟨Nat.lt_succ_self length, by omega⟩
          · omega

/-- The longest match is not empty and not longer than the input. -/
theorem WellFormed.longestMatch_total (h : d.WellFormed) (input : List σ) :
    ∃ m, d.longestMatch input = .ok m ∧ ∀ p ∈ m, 1 ≤ p.1 ∧ p.1 ≤ input.length := by
  obtain ⟨m, hm, hlength⟩ := h.matchFrom_total h.1 0 none input
  refine ⟨m, hm, fun p hp => ?_⟩
  rcases hlength p hp with hp | hp
  · cases hp
  · omega

/-- One symbol more in front: a later match wins over the one after that symbol. -/
theorem IsLongest.cons {f : Nat → Option α} {length : Nat} {m : Option (Nat × α)}
    (h : IsLongest (fun k => f (k + 1)) length m) :
    IsLongest f (length + 1)
      ((m.map fun p => (p.1 + 1, p.2)) <|> (f 1).map fun c => (1, c)) := by
  match m with
  | some (n, c) =>
    obtain ⟨-, hn, hf, hmax⟩ := h
    refine ⟨Nat.succ_pos n, Nat.succ_le_succ hn, hf, ?_⟩
    intro k hk hk'
    obtain ⟨j, rfl⟩ : ∃ j, k = j + 1 := ⟨k - 1, by omega⟩
    exact hmax j (by omega) (by omega)
  | none =>
    have hlater : ∀ k, 1 < k → k ≤ length + 1 → f k = none := by
      intro k hk hk'
      obtain ⟨j, rfl⟩ : ∃ j, k = j + 1 := ⟨k - 1, by omega⟩
      exact h j (by omega) (by omega)
    cases hf : f 1 with
    | some c => exact ⟨Nat.le_refl 1, Nat.succ_pos length, hf, hlater⟩
    | none =>
      intro k hk hk'
      rcases Nat.eq_or_lt_of_le hk with rfl | hk
      · exact hf
      · exact hlater k hk hk'

theorem WellFormed.matchFrom_eq (h : d.WellFormed) (hdead : d.DeadInert) (hid : id < d.size)
    (length : Nat) (longest : Option (Nat × α)) (input : List σ) :
    ∃ m, IsLongest (fun k => d.codeAfter id (input.take k)) input.length m ∧
      d.matchFrom id length longest input =
        .ok ((m.map fun p => (length + p.1, p.2)) <|> longest) := by
  induction input generalizing id length longest with
  | nil => exact ⟨none, fun k hk hk' => absurd hk' (by simp; omega), rfl⟩
  | cons x rest ih =>
    have hstep : ∀ k, d.codeAfter id ((x :: rest).take (k + 1)) =
        (d.next id x).bind fun target => d.codeAfter target (rest.take k) := by
      intro k
      rw [List.take_succ_cons, codeAfter_cons]
    have hno : (∀ k, d.codeAfter id ((x :: rest).take (k + 1)) = none) →
        IsLongest (fun k => d.codeAfter id ((x :: rest).take k)) (rest.length + 1) none := by
      intro hall k hk _
      obtain ⟨j, rfl⟩ : ∃ j, k = j + 1 := ⟨k - 1, by omega⟩
      exact hall j
    rw [matchFrom, h.next?_eq hid]
    cases hnext : d.next id x with
    | none =>
      refine ⟨none, hno ?_, rfl⟩
      intro k
      rw [hstep, hnext]
      rfl
    | some target =>
      have htarget := h.next_lt hnext
      show ∃ m, _ ∧ (if d.dead = some target then pure longest else _) = _
      by_cases hd : d.dead = some target
      · refine ⟨none, hno ?_, if_pos hd⟩
        intro k
        rw [hstep, hnext]
        exact hdead.codeAfter_eq hd _
      · rw [if_neg hd, code?_eq htarget]
        have hone : d.codeAfter id ((x :: rest).take 1) = d.code target := by
          rw [hstep 0, hnext]
          rfl
        have hlonger : ∀ m, IsLongest (fun k => d.codeAfter target (rest.take k)) rest.length m →
            IsLongest (fun k => d.codeAfter id ((x :: rest).take k)) (rest.length + 1)
              ((m.map fun p => (p.1 + 1, p.2)) <|> (d.code target).map fun c => (1, c)) := by
          intro m hm
          rw [← hone]
          refine IsLongest.cons (f := fun k => d.codeAfter id ((x :: rest).take k)) ?_
          simpa only [hstep, hnext, Option.bind_some] using hm
        cases hcode : d.code target with
        | none =>
          obtain ⟨m, hm, heq⟩ := ih htarget (length + 1) longest
          refine ⟨_, hlonger m hm, heq.trans ?_⟩
          rw [hcode]
          cases m <;> simp [Nat.add_assoc, Nat.add_comm 1]
        | some c =>
          obtain ⟨m, hm, heq⟩ := ih htarget (length + 1) (some (length + 1, c))
          refine ⟨_, hlonger m hm, heq.trans ?_⟩
          rw [hcode]
          cases m <;> simp [Nat.add_assoc, Nat.add_comm 1]

/-- The longest match is that of the codes after the beginnings of the input. -/
theorem WellFormed.longestMatch_eq (h : d.WellFormed) (hdead : d.DeadInert) (input : List σ) :
    ∃ m, d.longestMatch input = .ok m ∧
      IsLongest (fun k => d.codeAfter d.start (input.take k)) input.length m := by
  obtain ⟨m, hm, heq⟩ := h.matchFrom_eq hdead h.1 0 none input
  refine ⟨m, heq.trans ?_, hm⟩
  cases m <;> simp

end Munch.Dfa
