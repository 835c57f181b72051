-- SUMMARY: Automata in which every state is reached and only the dead state is without successors.
import Munch.Proofs.Dfa.Alike
import Munch.Proofs.Dfa.Determinize
import Mathlib.Data.Set.Card

/-! # Connected automata

In an automaton without idle states each state stands for a residual: the codes
of the words that go on from it. Changing the codes and minimizing keep an
automaton connected, and after minimizing different states stand for different
residuals. -/

namespace Munch.Dfa

variable {σ α β : Type} [Symbol σ] {d d' : Dfa σ α} {i j : Nat}

/-- The automaton is well formed, every state is reached, and every symbol leads on from every state
but the dead one. -/
structure Connected (d : Dfa σ α) : Prop where
  wellFormed : d.WellFormed
  deadInert : d.DeadInert
  reached : ∀ {i}, i < d.size → ∃ word, d.run d.start word = some i
  leads_on : ∀ {i}, i < d.size → d.dead ≠ some i → ∀ x, ∃ j, d.next i x = some j

theorem connected_of_faithful [Ord α] {n : Nfa σ α} {r : Subsets σ α}
    (hr : r.Faithful n) (h : n.WellFormed) : r.dfa.Connected where
  wellFormed := hr.wellFormed
  deadInert := hr.deadInert
  reached hi := by
    rw [hr.start_eq]
    exact hr.exists_run h hi
  leads_on hi hdead x := by
    obtain ⟨s, hs⟩ := Option.isSome_iff_exists.1 (hr.set?_isSome_iff.2 hi)
    have hne : s ≠ ∅ := by
      rintro rfl
      exact hdead (hr.dead_iff.2 hs)
    obtain ⟨j, hj, -⟩ := hr.next_eq hs hne x
    exact ⟨j, hj⟩

/-! ## Other codes -/

section MapCodes

variable (f : α → β)

theorem state_mapCodes (d : Dfa σ α) (i : Nat) :
    (d.mapCodes f).states[i]? = d.states[i]?.map fun s => ⟨s.transitions, s.code.map f⟩ :=
  Array.getElem?_map

theorem transitions_mapCodes (d : Dfa σ α) (i : Nat) :
    (d.mapCodes f).transitions i = d.transitions i := by
  rw [transitions, transitions, state_mapCodes, Option.map_map]
  rfl

theorem code_mapCodes (d : Dfa σ α) (i : Nat) : (d.mapCodes f).code i = (d.code i).map f := by
  rw [code, code, state_mapCodes]
  cases d.states[i]? <;> rfl

theorem next_mapCodes (d : Dfa σ α) (i : Nat) (x : σ) : (d.mapCodes f).next i x = d.next i x := by
  rw [next, next, transitions_mapCodes]

theorem succ_mapCodes (d : Dfa σ α) (i : Nat) (x : σ) : (d.mapCodes f).succ i x = d.succ i x := by
  rw [succ, succ, next_mapCodes]
  rfl

theorem run_mapCodes (d : Dfa σ α) (i : Nat) (word : List σ) :
    (d.mapCodes f).run i word = d.run i word := by
  induction word generalizing i with
  | nil => rfl
  | cons x rest ih =>
    rw [run, run, next_mapCodes]
    congr 1
    funext target
    exact ih target

theorem codeAfter_mapCodes (d : Dfa σ α) (i : Nat) (word : List σ) :
    (d.mapCodes f).codeAfter i word = (d.codeAfter i word).map f := by
  rw [codeAfter, codeAfter, run_mapCodes, Option.map_bind]
  congr 1
  funext target
  exact code_mapCodes f d target

theorem size_mapCodes (d : Dfa σ α) : (d.mapCodes f).size = d.size := Array.size_map

theorem WellFormed.mapCodes (h : d.WellFormed) : (d.mapCodes f).WellFormed := by
  rw [WellFormed, size_mapCodes]
  refine ⟨h.1, h.2.1, ?_⟩
  intro s hs
  obtain ⟨t, ht, rfl⟩ := Array.mem_map.1 (Array.mem_toList_iff.1 hs)
  exact h.2.2 t (Array.mem_toList_iff.2 ht)

theorem DeadInert.mapCodes (h : d.DeadInert) : (d.mapCodes f).DeadInert := by
  intro id hid s hs
  rw [state_mapCodes] at hs
  obtain ⟨t, ht, rfl⟩ := Option.map_eq_some_iff.1 hs
  obtain ⟨htrans, hcode⟩ := h id hid t ht
  exact ⟨htrans, by rw [hcode]; rfl⟩

theorem Connected.mapCodes (h : d.Connected) : (d.mapCodes f).Connected where
  wellFormed := h.wellFormed.mapCodes f
  deadInert := h.deadInert.mapCodes f
  reached hi := by
    rw [size_mapCodes] at hi
    obtain ⟨word, hword⟩ := h.reached hi
    exact ⟨word, (run_mapCodes f d _ word).trans hword⟩
  leads_on hi hdead x := by
    rw [size_mapCodes] at hi
    rw [next_mapCodes]
    exact h.leads_on hi hdead x

end MapCodes

/-! ## Images -/

/-- A state is reached in the image if its preimage is: where the run stops in the dead state, it
would only have stayed there. -/
theorem Image.exists_run {f : Nat → Nat} (hf : Image d d' f) (h : d.Connected)
    (hdead' : d'.DeadInert)
    (hon : ∀ {i}, i < d'.size → d'.dead ≠ some i → ∀ x, ∃ j, d'.next i x = some j)
    {word : List σ} (hrun : d.run d.start word = some i) :
    ∃ word', d'.run d'.start word' = some (f i) := by
  induction word using List.reverseRecOn generalizing i with
  | nil =>
    cases hrun
    exact ⟨[], congrArg some hf.start_eq⟩
  | append_singleton word x ih =>
    rw [run_append] at hrun
    obtain ⟨a, ha, hstep⟩ := Option.bind_eq_some_iff.1 hrun
    obtain ⟨b, hb, hbi⟩ := Option.bind_eq_some_iff.1 hstep
    cases hbi
    obtain ⟨word', hword'⟩ := ih ha
    have halt := h.wellFormed.run_lt h.wellFormed.1 ha
    have hsucc : d'.succ (f a) x = some (f i) := by
      rw [hf.succ_eq halt, succ, hb]
      rfl
    by_cases hdead : d'.dead = some (f a)
    · rw [succ, hdead'.next_eq hdead, hdead] at hsucc
      have hstay : f a = f i := Option.some.inj hsucc
      exact ⟨word', hstay ▸ hword'⟩
    · obtain ⟨j, hj⟩ := hon (hf.lt halt) hdead x
      rw [succ, hj] at hsucc
      refine ⟨word' ++ [x], ?_⟩
      rw [run_append, hword', Option.bind_some, run, hj]
      exact hsucc

theorem Image.connected {f : Nat → Nat} (hf : Image d d' f) (h : d.Connected)
    (h' : d'.WellFormed) (hdead' : d'.DeadInert) : d'.Connected := by
  have hon : ∀ {i}, i < d'.size → d'.dead ≠ some i → ∀ x, ∃ j, d'.next i x = some j := by
    intro i hi hdead x
    obtain ⟨a, ha, rfl⟩ := hf.onto hi
    obtain ⟨b, hb, hba, hnext⟩ := hf.next_eq ha hdead
    have hdeadb : d.dead ≠ some b := by
      intro hd
      rw [hf.dead_eq, hd, ← hba] at hdead
      exact hdead rfl
    obtain ⟨j, hj⟩ := h.leads_on hb hdeadb x
    refine ⟨f j, ?_⟩
    rw [hnext, hj]
    rfl
  refine ⟨h', hdead', ?_, hon⟩
  intro i hi
  obtain ⟨a, ha, rfl⟩ := hf.onto hi
  obtain ⟨word, hword⟩ := h.reached ha
  exact hf.exists_run h hdead' hon hword

/-! ## Residuals -/

/-- Different states are told apart by the codes of some word. -/
def Apart (d : Dfa σ α) : Prop :=
  ∀ i < d.size, ∀ j < d.size, i ≠ j → ∃ word, d.codeAfter i word ≠ d.codeAfter j word

/-- Where a word leads nowhere, the run has been in the dead state. -/
theorem Connected.exists_dead (h : d.Connected) (hi : i < d.size) {word : List σ}
    (hrun : d.run i word = none) : ∃ k, d.dead = some k := by
  induction word generalizing i with
  | nil => cases hrun
  | cons x rest ih =>
    by_cases hdead : d.dead = some i
    · exact ⟨i, hdead⟩
    · obtain ⟨j, hj⟩ := h.leads_on hi hdead x
      rw [run, hj] at hrun
      exact ih (h.wellFormed.next_lt hj) hrun

theorem Connected.alike_of_codes (h : d.Connected) (hi : i < d.size) (hj : j < d.size)
    (hcodes : ∀ word, d.codeAfter i word = d.codeAfter j word) : d.Alike i j := by
  refine h.deadInert.alike_of_words hcodes fun hnone word => iff_of_false ?_ ?_
  · intro hrun
    obtain ⟨k, hk⟩ := h.exists_dead hi hrun
    cases hnone.symm.trans hk
  · intro hrun
    obtain ⟨k, hk⟩ := h.exists_dead hj hrun
    cases hnone.symm.trans hk

theorem Connected.minimize?_eq [DecidableEq α] (h : d.Connected) :
    ∃ d', d.minimize? = .ok d' ∧ d'.Connected ∧ d'.Apart ∧
      ∀ word, d'.codeAfter d'.start word = d.codeAfter d.start word := by
  obtain ⟨d', f, m, hmin, h', hdead', hf, hsame⟩ := h.wellFormed.minimize?_eq h.deadInert
  have hcodes : ∀ {a}, a < d.size → ∀ word, d'.codeAfter (f a) word = d.codeAfter a word :=
    hf.codeAfter_eq h.wellFormed h.deadInert hdead'
  refine ⟨d', hmin, hf.connected h h' hdead', ?_, ?_⟩
  · intro i hi j hj hij
    obtain ⟨a, ha, rfl⟩ := hf.onto hi
    obtain ⟨b, hb, rfl⟩ := hf.onto hj
    by_contra hall
    simp only [hcodes ha, hcodes hb, not_exists, not_not] at hall
    exact hij (hsame a ha b hb (h.alike_of_codes ha hb hall m))
  · intro word
    rw [hf.start_eq, hcodes h.wellFormed.1]

theorem codeAfter_append (d : Dfa σ α) (i : Nat) (u v : List σ) :
    d.codeAfter i (u ++ v) = (d.run i u).bind fun j => d.codeAfter j v := by
  rw [codeAfter, run_append, Option.bind_assoc]
  rfl

/-- There are as many states as residuals. -/
theorem Connected.encard_residuals (h : d.Connected) (hapart : d.Apart) :
    (Set.range fun u v => d.codeAfter d.start (u ++ v)).encard = d.size := by
  have hrange : (Set.range fun u v => d.codeAfter d.start (u ++ v)) =
      d.codeAfter '' {i | i < d.size} := by
    refine Set.ext fun residual => ⟨?_, ?_⟩
    · rintro ⟨u, rfl⟩
      cases hu : d.run d.start u with
      | some i =>
        refine ⟨i, h.wellFormed.run_lt h.wellFormed.1 hu, funext fun v => ?_⟩
        show _ = d.codeAfter d.start (u ++ v)
        rw [codeAfter_append, hu]
        rfl
      | none =>
        obtain ⟨k, hk⟩ := h.exists_dead h.wellFormed.1 hu
        refine ⟨k, h.wellFormed.2.1 k hk, funext fun v => ?_⟩
        show _ = d.codeAfter d.start (u ++ v)
        rw [codeAfter_append, hu, h.deadInert.codeAfter_eq hk]
        rfl
    · rintro ⟨i, hi, rfl⟩
      obtain ⟨u, hu⟩ := h.reached hi
      refine ⟨u, funext fun v => ?_⟩
      show d.codeAfter d.start (u ++ v) = _
      rw [codeAfter_append, hu]
      rfl
  have hinj : Set.InjOn d.codeAfter {i | i < d.size} := by
    intro i hi j hj hij
    by_contra hne
    obtain ⟨word, hword⟩ := hapart i hi j hj hne
    exact hword (congrFun hij word)
  rw [hrange, hinj.encard_image]
  exact Set.Nat.encard_range d.size

end Munch.Dfa
