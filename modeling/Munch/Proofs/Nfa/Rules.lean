-- SUMMARY: A word leads to the codes of the rules whose fragments match it.
import Munch.Proofs.Nfa.Moves
import Munch.Proofs.Nfa.Thompson

/-! # Automata of rules

Each rule adds a part that is entered from the root by a silent edge and that
nothing else leads to. No edge leads back to the root, so a trail from the root
lies in the part of one rule. -/

namespace Munch.Nfa

variable {σ α : Type} [Symbol σ]

/-! ## Codes and edges -/

namespace Builder

variable {b : Builder σ α} {i j id : Nat} {l : Option (RangeSet σ)} {c : α}

theorem HasEdge.lt (h : b.HasEdge i l j) : i < b.size := by
  by_contra hi
  have hnone : b.states[i]? = none := Array.getElem?_eq_none (Nat.le_of_not_lt hi)
  rw [HasEdge, edges] at h
  have hempty : ((b.build 0).states[i]?.map State.edges).getD [] = [] := by
    show (b.states[i]?.map State.edges).getD [] = []
    rw [hnone]
    rfl
  rw [hempty] at h
  cases h

theorem lt_of_code (h : b.code? i = some c) : i < b.size := by
  by_contra hi
  have hnone : b.states[i]? = none := Array.getElem?_eq_none (Nat.le_of_not_lt hi)
  have : (b.states[i]?.bind State.code) = some c := h
  rw [hnone] at this
  cases this

@[simp] theorem size_setCode (b : Builder σ α) (id : Nat) (c : α) :
    (b.setCode id c).size = b.size :=
  Array.size_modify ..

theorem hasEdge_setCode : (b.setCode id c).HasEdge i l j ↔ b.HasEdge i l j := by
  have hedges : ((b.setCode id c).build 0).edges i = (b.build 0).edges i := by
    show ((b.states.modify id _)[i]?.map State.edges).getD [] =
      (b.states[i]?.map State.edges).getD []
    rw [Array.getElem?_modify]
    split
    · cases b.states[i]? <;> rfl
    · rfl
  rw [HasEdge, hedges]
  rfl

theorem code?_setCode (hid : id < b.size) :
    (b.setCode id c).code? i = if i = id then some c else b.code? i := by
  show (b.states.modify id _)[i]?.bind State.code = if i = id then some c else b.states[i]?.bind _
  rw [Array.getElem?_modify]
  by_cases hi : id = i
  · subst hi
    obtain ⟨s, hs⟩ : ∃ s, b.states[id]? = some s := ⟨_, Array.getElem?_eq_getElem hid⟩
    simp [hs]
  · rw [if_neg hi, if_neg (Ne.symm hi)]

end Builder

/-! ## Adding rules -/

/-- State 0 is the root of an automaton that reads the words of the rules. -/
structure Rooted (b : Builder σ α) (rules : List (Fragment σ × α)) : Prop where
  size_pos : 0 < b.size
  target_lt : ∀ {i l j}, b.HasEdge i l j → j < b.size
  not_root : ∀ {i l}, ¬ b.HasEdge i l 0
  code_iff : ∀ {w c}, (∃ i, Trail b.HasEdge 0 w i ∧ b.code? i = some c) ↔
    ∃ rule ∈ rules, rule.2 = c ∧ rule.1.Matches w

theorem rooted_empty : Rooted (Builder.empty.newState : Builder σ α) [] := by
  have hgrows := Builder.grows_newState (Builder.empty : Builder σ α)
  have hedge : ∀ {i l j}, ¬ (Builder.empty.newState : Builder σ α).HasEdge i l j := by
    intro i l j h
    rcases hgrows.edge_iff.1 h with h | h
    · exact absurd h.lt (Nat.not_lt_zero i)
    · exact h
  refine ⟨by simp, fun h => absurd h hedge, hedge, ?_⟩
  intro w c
  constructor
  · rintro ⟨i, -, hi⟩
    rw [hgrows.code_eq] at hi
    exact absurd (Builder.lt_of_code hi) (Nat.not_lt_zero i)
  · rintro ⟨rule, hrule, -⟩
    cases hrule

section AddRule

variable {b b₁ : Builder σ α} {ends : Ends} {rules : List (Fragment σ × α)} {f : Fragment σ}
  {c : α} {new : Edges σ}

/-- The words that lead to the states of the old part and of the new one. -/
def RuleLeads (b b₁ : Builder σ α) (ends : Ends) (new : Edges σ) (i : Nat) (w : List σ) : Prop :=
  (i < b.size ∧ Trail b.HasEdge 0 w i) ∨
  ((b.size ≤ i ∧ i < b₁.size) ∧ Trail new ends.entry w i)

variable (h : Rooted b rules) (h₁ : Part b b₁ ends f.Matches new)
include h h₁

theorem hasEdge_addRule {i j : Nat} {l : Option (RangeSet σ)} :
    ((b₁.addSilent 0 ends.entry).setCode ends.exit c).HasEdge i l j ↔
      (b.HasEdge i l j ∨ new i l j) ∨ Edges.single 0 none ends.entry i l j := by
  have hroot : 0 < b₁.size := Nat.lt_of_lt_of_le h.size_pos h₁.grows.size_le
  rw [Builder.hasEdge_setCode, (Builder.grows_addSilent hroot ends.entry).edge_iff,
    h₁.grows.edge_iff]

theorem code?_addRule {i : Nat} :
    ((b₁.addSilent 0 ends.entry).setCode ends.exit c).code? i =
      if i = ends.exit then some c else b.code? i := by
  have hroot : 0 < b₁.size := Nat.lt_of_lt_of_le h.size_pos h₁.grows.size_le
  have hexit : ends.exit < (b₁.addSilent 0 ends.entry).size := by
    rw [Builder.size_addSilent]
    exact h₁.bounds.2.2
  rw [Builder.code?_setCode hexit, (Builder.grows_addSilent hroot ends.entry).code_eq,
    h₁.grows.code_eq]

theorem ruleLeads_step {i j : Nat} {l : Option (RangeSet σ)} {u w : List σ}
    (hij : ((b₁.addSilent 0 ends.entry).setCode ends.exit c).HasEdge i l j) (hu : Reads l u)
    (hi : RuleLeads b b₁ ends new i w) : RuleLeads b b₁ ends new j (w ++ u) := by
  have hbounds := h₁.bounds
  have hpos := h.size_pos
  rcases (hasEdge_addRule h h₁).1 hij with (hij | hij) | ⟨rfl, rfl, rfl⟩
  · have hlt := hij.lt
    rcases hi with ⟨-, hi⟩ | ⟨hi, -⟩
    · exact .inl ⟨h.target_lt hij, hi.snoc hij hu⟩
    · omega
  · have hin := h₁.inside hij
    rcases hi with ⟨hi, -⟩ | ⟨-, hi⟩
    · omega
    · exact .inr ⟨hin.2, hi.snoc hij hu⟩
  · cases hu
    rcases hi with ⟨-, hi⟩ | ⟨hi, -⟩
    · obtain ⟨-, rfl⟩ := hi.eq_of_no_edge fun _ _ => h.not_root
      exact .inr ⟨by omega, .stay _⟩
    · omega

theorem rooted_addRule :
    Rooted ((b₁.addSilent 0 ends.entry).setCode ends.exit c) (rules ++ [(f, c)]) where
  size_pos := by
    rw [Builder.size_setCode, Builder.size_addSilent]
    exact Nat.lt_of_lt_of_le h.size_pos h₁.grows.size_le
  target_lt hij := by
    have hbounds := h₁.bounds
    rw [Builder.size_setCode, Builder.size_addSilent]
    rcases (hasEdge_addRule h h₁).1 hij with (hij | hij) | ⟨-, -, rfl⟩
    · exact Nat.lt_of_lt_of_le (h.target_lt hij) h₁.grows.size_le
    · exact (h₁.inside hij).2.2
    · omega
  not_root hij := by
    have hbounds := h₁.bounds
    have hpos := h.size_pos
    rcases (hasEdge_addRule h h₁).1 hij with (hij | hij) | ⟨-, -, hzero⟩
    · exact h.not_root hij
    · have := h₁.inside hij
      omega
    · omega
  code_iff {w c'} := by
    have hbounds := h₁.bounds
    constructor
    · rintro ⟨i, hp, hi⟩
      rw [code?_addRule h h₁] at hi
      have hstart : RuleLeads b b₁ ends new 0 [] := .inl ⟨h.size_pos, .stay 0⟩
      rcases hp.describes (fun i l j u w => ruleLeads_step h h₁) hstart with
        ⟨hlt, hold⟩ | ⟨hge, hnew⟩
      · rw [if_neg (by omega)] at hi
        obtain ⟨rule, hrule, hmatch⟩ := h.code_iff.1 ⟨i, hold, hi⟩
        exact ⟨rule, List.mem_append_left _ hrule, hmatch⟩
      · by_cases hexit : i = ends.exit
        · subst hexit
          rw [if_pos rfl] at hi
          cases hi
          exact ⟨(f, c), by simp, rfl, (h₁.trail_iff w).1 hnew⟩
        · rw [if_neg hexit] at hi
          have := Builder.lt_of_code hi
          omega
    · rintro ⟨rule, hrule, rfl, hmatch⟩
      rcases List.mem_append.1 hrule with hrule | hrule
      · obtain ⟨i, hp, hi⟩ := h.code_iff.2 ⟨rule, hrule, rfl, hmatch⟩
        have hlt := Builder.lt_of_code hi
        refine ⟨i, hp.mono fun _ _ _ hij => (hasEdge_addRule h h₁).2 (.inl (.inl hij)), ?_⟩
        rw [code?_addRule h h₁, if_neg (by omega)]
        exact hi
      · cases List.mem_singleton.1 hrule
        have hpart := ((h₁.trail_iff w).2 hmatch).mono fun _ _ _ hij =>
          (hasEdge_addRule (c := c) h h₁).2 (.inl (.inr hij))
        refine ⟨ends.exit, .silent ((hasEdge_addRule h h₁).2 (.inr ⟨rfl, rfl, rfl⟩)) hpart, ?_⟩
        rw [code?_addRule h h₁, if_pos rfl]

end AddRule

theorem Rooted.foldl {b : Builder σ α} {done : List (Fragment σ × α)} (h : Rooted b done)
    (rules : List (Fragment σ × α)) : Rooted (rules.foldl Builder.addRule b) (done ++ rules) := by
  induction rules generalizing b done with
  | nil => rwa [List.append_nil]
  | cons rule rules ih =>
    obtain ⟨new, h₁⟩ := build_part b rule.1
    rw [List.append_cons]
    exact ih (rooted_addRule h h₁)

/-! ## The automaton of a list of rules -/

variable (rules : List (Fragment σ × α))

theorem rooted_ofRules : Rooted (rules.foldl Builder.addRule Builder.empty.newState) rules :=
  rooted_empty.foldl rules

theorem ofRules_wellFormed : (ofRules rules).WellFormed := by
  have h := rooted_ofRules rules
  refine ⟨h.size_pos, ?_⟩
  intro s hs e he
  obtain ⟨i, hi, rfl⟩ := Array.mem_iff_getElem.1 (Array.mem_toList_iff.1 hs)
  refine h.target_lt (i := i) (l := e.label) ?_
  have hedges : (ofRules rules).edges i = (ofRules rules).states[i].edges :=
    edges_of_state (Array.getElem?_eq_getElem hi)
  show _ ∈ (ofRules rules).edges i
  rw [hedges]
  exact he

/-- The codes that a word leads to are those of the rules that match it. -/
theorem mem_codes_ofRules {w : List σ} {c : α} :
    (∃ i ∈ (ofRules rules).after w, (ofRules rules).code? i = some c) ↔
      ∃ rule ∈ rules, rule.2 = c ∧ rule.1.Matches w := by
  rw [← (rooted_ofRules rules).code_iff]
  simp only [(ofRules_wellFormed rules).mem_after]
  rfl

/-! ## The codes after a word -/

/-- What the greatest code of the rules that match a word is: none if no rule matches it, and else
one that some of those rules has and none exceeds. -/
def IsGreatestMatch [Ord α] (rules : List (Fragment σ × α)) (w : List σ) : Option α → Prop
  | none => ∀ rule ∈ rules, ¬ rule.1.Matches w
  | some c => (∃ rule ∈ rules, rule.2 = c ∧ rule.1.Matches w) ∧
      ∀ rule ∈ rules, rule.1.Matches w → (compare rule.2 c).isLE

theorem isGreatestMatch_of_isGreatestCode [Ord α] {w : List σ} {m : Option α}
    (h : (ofRules rules).IsGreatestCode ((ofRules rules).after w) m) :
    IsGreatestMatch rules w m := by
  have hcode : ∀ rule ∈ rules, rule.1.Matches w →
      ∃ i ∈ (ofRules rules).after w, (ofRules rules).code? i = some rule.2 :=
    fun rule hrule hw => (mem_codes_ofRules rules).2 ⟨rule, hrule, rfl, hw⟩
  cases m with
  | none =>
    intro rule hrule hw
    obtain ⟨i, hi, hc⟩ := hcode rule hrule hw
    rw [h i hi] at hc
    cases hc
  | some c =>
    obtain ⟨hmem, hmax⟩ := h
    refine ⟨(mem_codes_ofRules rules).1 hmem, ?_⟩
    intro rule hrule hw
    obtain ⟨i, hi, hc⟩ := hcode rule hrule hw
    exact hmax i hi rule.2 hc

/-- The codes of the states that the automaton of some rules can be in after a word are those of the
rules that match the word, and the code of the set of these states is the greatest of them. -/
theorem ofRules_codes [Ord α] [Std.TransOrd α] (w : List σ) :
    (∀ i, i ∈ (ofRules rules).after w ↔ (ofRules rules).Path (ofRules rules).start w i) ∧
    (∀ c, (∃ i, (ofRules rules).Path (ofRules rules).start w i ∧
        (ofRules rules).code? i = some c) ↔
      ∃ rule ∈ rules, rule.2 = c ∧ rule.1.Matches w) ∧
    ∃ m, (ofRules rules).codeOf? ((ofRules rules).after w) = .ok m ∧
      IsGreatestMatch rules w m := by
  have hwf := ofRules_wellFormed rules
  have hafter : ∀ i, i ∈ (ofRules rules).after w ↔
      (ofRules rules).Path (ofRules rules).start w i := fun i => hwf.mem_after
  refine ⟨hafter, ?_, _, codeOf?_eq (hwf.after_lt w), ?_⟩
  · intro c
    rw [← mem_codes_ofRules rules]
    simp only [hafter]
  · exact isGreatestMatch_of_isGreatestCode rules (isGreatestCode_codeOf _ _)

/-- A loop of a loop whose body may be skipped, beside a sequence that nothing matches and a choice
of one loop. -/
def nestedLoops : List (Fragment Char × Nat) :=
  [(.optRep (.optRep (.oneOf (.only 'a')) true true) false true, 3),
    (.sequence [.optRep .nothing true false, .oneOf .empty], 9),
    (.alternative [.optRep (.sequence [.oneOf (.only 'a'), .sequence []]) false true], 5)]

theorem nestedLoops_codes :
    (∀ c, (∃ i, (ofRules nestedLoops).Path (ofRules nestedLoops).start ['a', 'a'] i ∧
        (ofRules nestedLoops).code? i = some c) ↔
      ∃ rule ∈ nestedLoops, rule.2 = c ∧ rule.1.Matches ['a', 'a']) ∧
    ∃ m, (ofRules nestedLoops).codeOf? ((ofRules nestedLoops).after ['a', 'a']) = .ok m ∧
      IsGreatestMatch nestedLoops ['a', 'a'] m :=
  (ofRules_codes nestedLoops ['a', 'a']).2

end Munch.Nfa
