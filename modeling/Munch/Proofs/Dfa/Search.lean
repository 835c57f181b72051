-- SUMMARY: The longest match is what a search through all beginnings of the input finds.
import Munch.Proofs.Dfa.Steps

/-! # Search for the longest match

Matching goes through the input once and ends where the dead state is entered.
The search tries all beginnings of the input, the longest one first, and knows
no dead state. Both find the same match. -/

namespace Munch.Dfa

variable {σ α : Type} [Symbol σ] {d : Dfa σ α}

/-! ## Codes of words -/

/-- The code that a word ends on from the start state, if every symbol of it leads somewhere. -/
def accepts? (d : Dfa σ α) (word : List σ) : Except (Fault σ) (Option α) := do
  match ← d.run? d.start word with
  | some last => d.code? last
  | none => return none

theorem WellFormed.accepts?_eq (h : d.WellFormed) (word : List σ) :
    d.accepts? word = .ok (d.codeAfter d.start word) := by
  rw [accepts?, h.run?_eq h.1, codeAfter]
  cases hrun : d.run d.start word with
  | none => rfl
  | some last => exact code?_eq (h.run_lt h.1 hrun)

/-! ## The search -/

/-- The longest beginning of the input with a code, of those with at most `n` symbols and not
counting the empty one. -/
def search? (d : Dfa σ α) (input : List σ) : Nat → Except (Fault σ) (Option (Nat × α))
  | 0 => .ok none
  | n + 1 => do
    match ← d.accepts? (input.take (n + 1)) with
    | some code => return some (n + 1, code)
    | none => d.search? input n

/-- Nothing with one symbol more: the longest so far stays the longest. -/
theorem IsLongest.succ {f : Nat → Option α} {n : Nat} {m : Option (Nat × α)}
    (h : IsLongest f n m) (hf : f (n + 1) = none) : IsLongest f (n + 1) m := by
  have hlast : ∀ k, k ≤ n + 1 → (k ≤ n → f k = none) → f k = none := by
    intro k hk hle
    rcases Nat.le_succ_iff.1 hk with hk | rfl
    · exact hle hk
    · exact hf
  match m with
  | some (k, c) =>
    obtain ⟨hk, hn, hc, hmax⟩ := h
    exact ⟨hk, Nat.le_succ_of_le hn, hc, fun j hj hjn => hlast j hjn (hmax j hj)⟩
  | none => exact fun j hj hjn => hlast j hjn (h j hj)

theorem WellFormed.search?_eq (h : d.WellFormed) (input : List σ) (n : Nat) :
    ∃ m, d.search? input n = .ok m ∧
      IsLongest (fun k => d.codeAfter d.start (input.take k)) n m := by
  induction n with
  | zero => exact ⟨none, rfl, fun k hk hk' => absurd hk' (by omega)⟩
  | succ n ih =>
    rw [search?, h.accepts?_eq]
    cases hcode : d.codeAfter d.start (input.take (n + 1)) with
    | some c =>
      exact ⟨some (n + 1, c), rfl, Nat.succ_pos n, Nat.le_refl _, hcode,
        fun k hk hk' => absurd hk' (by omega)⟩
    | none =>
      obtain ⟨m, hm, hlongest⟩ := ih
      exact ⟨m, hm, hlongest.succ hcode⟩

/-! ## The dead state -/

/-- The same automaton, in which no state is called dead. -/
def undeclare (d : Dfa σ α) : Dfa σ α := { d with dead := none }

theorem WellFormed.undeclare (h : d.WellFormed) : d.undeclare.WellFormed :=
  ⟨h.1, nofun, h.2.2⟩

theorem deadInert_undeclare (d : Dfa σ α) : d.undeclare.DeadInert := nofun

theorem run_undeclare (d : Dfa σ α) (id : Nat) (word : List σ) :
    d.undeclare.run id word = d.run id word := by
  induction word generalizing id with
  | nil => rfl
  | cons x rest ih =>
    simp only [run, ih]
    rfl

theorem codeAfter_undeclare (d : Dfa σ α) (id : Nat) (word : List σ) :
    d.undeclare.codeAfter id word = d.codeAfter id word := by
  rw [codeAfter, run_undeclare]
  rfl

theorem WellFormed.longestMatch_undeclare (h : d.WellFormed) (hdead : d.DeadInert)
    (input : List σ) : d.undeclare.longestMatch input = d.longestMatch input := by
  obtain ⟨m, hm, hlongest⟩ := h.longestMatch_eq hdead input
  obtain ⟨m', hm', hlongest'⟩ := h.undeclare.longestMatch_eq (deadInert_undeclare d) input
  simp only [codeAfter_undeclare] at hlongest'
  rw [hm', hm, hlongest'.unique hlongest]

/-! ## Longer inputs -/

/-- What is found among more words is at least as long. -/
theorem IsLongest.le {f g : Nat → Option α} {n n' : Nat} {m m' : Option (Nat × α)}
    (h : IsLongest f n m) (h' : IsLongest g n' m') (hn : n ≤ n') (hfg : ∀ k ≤ n, g k = f k) :
    ∀ p ∈ m, ∃ p' ∈ m', p.1 ≤ p'.1 := by
  rintro ⟨k, c⟩ rfl
  obtain ⟨hk, hkn, hc, -⟩ := h
  have hgc : g k = some c := (hfg k hkn).trans hc
  match m' with
  | none =>
    rw [h' k hk (Nat.le_trans hkn hn)] at hgc
    cases hgc
  | some (k', c') =>
    refine ⟨(k', c'), rfl, Nat.le_of_not_lt fun hlt => ?_⟩
    rw [h'.2.2.2 k hlt (Nat.le_trans hkn hn)] at hgc
    cases hgc

/-! ## The longest match -/

/-- The longest match is the longest beginning of the input with a code, as the search finds it. It
is the same without a dead state, and more symbols do not make it shorter. -/
theorem longestMatch_eq_search (d : Dfa σ α) (h : d.WellFormed) (hdead : d.DeadInert)
    (input : List σ) :
    ∃ m, d.longestMatch input = .ok m ∧ d.search? input input.length = .ok m ∧
      (∃ f, (∀ k, d.accepts? (input.take k) = .ok (f k)) ∧ IsLongest f input.length m) ∧
      d.undeclare.longestMatch input = .ok m ∧
      ∀ more, ∃ m', d.longestMatch (input ++ more) = .ok m' ∧ ∀ p ∈ m, ∃ p' ∈ m', p.1 ≤ p'.1 := by
  obtain ⟨m, hm, hlongest⟩ := h.longestMatch_eq hdead input
  obtain ⟨found, hfound, hlongest'⟩ := h.search?_eq input input.length
  obtain rfl := hlongest'.unique hlongest
  refine ⟨found, hm, hfound, ⟨_, fun k => h.accepts?_eq (input.take k), hlongest⟩, ?_, ?_⟩
  · rw [h.longestMatch_undeclare hdead, hm]
  · intro more
    obtain ⟨m', hm', hmore⟩ := h.longestMatch_eq hdead (input ++ more)
    refine ⟨m', hm', hlongest.le hmore ?_ fun k hk => ?_⟩
    · rw [List.length_append]
      omega
    · rw [List.take_append_of_le_length hk]

/-- A start state that accepts, matches with a stretch without a code between them, and a dead
state. -/
def gapped : Dfa Char Nat where
  start := 0
  dead := some 3
  states := #[⟨[(.only 'a', 1), (.only 'b', 3)], some 9⟩, ⟨[(.only 'a', 2)], some 5⟩,
    ⟨[(.only 'a', 1), (.only 'b', 3)], none⟩, ⟨[], none⟩]

theorem gapped_eq_search : gapped.WellFormed ∧ gapped.DeadInert ∧
    gapped.search? ['a', 'a', 'a', 'a', 'b'] 5 = .ok (some (3, 5)) ∧
    gapped.longestMatch ['a', 'a', 'a', 'a', 'b'] = .ok (some (3, 5)) := by
  have hwf : gapped.WellFormed := by decide +kernel
  have hdead : gapped.DeadInert := by decide +kernel
  have hfound : gapped.search? ['a', 'a', 'a', 'a', 'b'] 5 = .ok (some (3, 5)) := rfl
  obtain ⟨m, hm, hsearch, -⟩ :=
    longestMatch_eq_search gapped hwf hdead ['a', 'a', 'a', 'a', 'b']
  exact ⟨hwf, hdead, hfound, hm.trans (hsearch.symm.trans hfound)⟩

end Munch.Dfa
