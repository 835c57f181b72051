-- SUMMARY: The compiled automaton finds the longest match, and no smaller one is possible.
import Munch.Proofs.Dfa.Connected
import Munch.Proofs.Nfa.Rules
import Munch.Proofs.Rule

/-! # Compilation

A word ends in the compiled automaton on the code of the rule that wins for it.
The longest match is therefore won by the longest beginning that some rule
matches, and the states of a minimized automaton are the residuals of the
function from words to winners. -/

namespace Munch

/-! ## Labels -/

section Labels

variable {σ α : Type} [Symbol σ] [Ord α]

/-- The greatest label of the fragments that match a word; none if no fragment does. -/
def IsGreatestLabel (entries : List (Fragment σ × α)) (w : List σ) : Option α → Prop
  | none => ∀ e ∈ entries, ¬ e.1.Matches w
  | some c => (∃ e ∈ entries, e.2 = c ∧ e.1.Matches w) ∧
      ∀ e ∈ entries, e.1.Matches w → (compare e.2 c).isLE

theorem isGreatestLabel_of_isGreatestCode {entries : List (Fragment σ × α)} {w : List σ}
    {c : Option α}
    (h : (Nfa.ofRules entries).IsGreatestCode ((Nfa.ofRules entries).after w) c) :
    IsGreatestLabel entries w c := by
  have hcodes : ∀ {c}, (∃ i ∈ (Nfa.ofRules entries).after w,
      (Nfa.ofRules entries).code? i = some c) ↔ ∃ e ∈ entries, e.2 = c ∧ e.1.Matches w :=
    Nfa.mem_codes_ofRules entries
  cases c with
  | none =>
    intro e he hmatch
    obtain ⟨i, hi, hcode⟩ := hcodes.2 ⟨e, he, rfl, hmatch⟩
    rw [h i hi] at hcode
    cases hcode
  | some c =>
    refine ⟨hcodes.1 h.1, ?_⟩
    intro e he hmatch
    obtain ⟨i, hi, hcode⟩ := hcodes.2 ⟨e, he, rfl, hmatch⟩
    exact h.2 i hi e.2 hcode

/-- Places are compared backwards, then codes. -/
instance [Std.TransOrd α] : Std.TransOrd (Label α) := by
  have hplace : Std.TransCmp (fun a b : Label α => compareOn Label.place b a) :=
    Std.TransCmp.opposite
  have hlex : Std.TransCmp
      (compareLex (fun a b : Label α => compareOn Label.place b a) (compareOn Label.code)) :=
    inferInstance
  exact hlex

theorem place_le_of_compare {a b : Label α} (h : (compare a b).isLE) : b.place ≤ a.place := by
  have heq : compare a b = (compare b.place a.place).then (compare a.code b.code) := rfl
  rw [heq, Ordering.isLE_then_iff_and] at h
  exact Nat.isLE_compare.1 h.1

end Labels

/-! ## The automaton before minimization -/

variable {α : Type} [Ord α] [Std.TransOrd α]

theorem determinizeRules_eq {β : Type} [Ord β] [Std.TransOrd β]
    (entries : List (Fragment Char × β)) :
    ∃ d, determinizeRules entries = .ok d ∧ d.Connected ∧
      ∀ w, IsGreatestLabel entries w (d.codeAfter d.start w) := by
  have hwf := Nfa.ofRules_wellFormed entries
  obtain ⟨r, hr, hfaithful⟩ := hwf.determinize_eq
  refine ⟨r.dfa, by rw [determinizeRules, hr]; rfl, Dfa.connected_of_faithful hfaithful hwf, ?_⟩
  intro w
  rw [hfaithful.codeAfter_eq hwf]
  exact isGreatestLabel_of_isGreatestCode (Nfa.isGreatestCode_codeOf _ _)

section Winners

variable {rules : List (Rule α)} {entries : List (Fragment Char × α)} {w : List Char}

omit [Ord α] [Std.TransOrd α] in
theorem getElem?_labelledBy (h : List.Forall₂ Rule.LabelledBy rules entries) (i : Nat) :
    Option.Rel Rule.LabelledBy rules[i]? entries[i]? := by
  induction h generalizing i with
  | nil => exact .none
  | cons hentry _ ih =>
    cases i with
    | zero => exact .some hentry
    | succ i => exact ih i

omit [Ord α] [Std.TransOrd α] in
theorem exists_entry (h : List.Forall₂ Rule.LabelledBy rules entries) {i : Nat} {rule : Rule α}
    (hi : rules[i]? = some rule) : ∃ e, entries[i]? = some e ∧ rule.LabelledBy e := by
  have hrel := getElem?_labelledBy h i
  rw [hi] at hrel
  cases he : entries[i]? with
  | none => rw [he] at hrel; cases hrel
  | some e =>
    rw [he] at hrel
    cases hrel with
    | some hlabelled => exact ⟨e, rfl, hlabelled⟩

omit [Ord α] [Std.TransOrd α] in
theorem exists_rule (h : List.Forall₂ Rule.LabelledBy rules entries) {i : Nat}
    {e : Fragment Char × α} (hi : entries[i]? = some e) :
    ∃ rule, rules[i]? = some rule ∧ rule.LabelledBy e := by
  have hrel := getElem?_labelledBy h i
  rw [hi] at hrel
  cases hr : rules[i]? with
  | none => rw [hr] at hrel; cases hrel
  | some rule =>
    rw [hr] at hrel
    cases hrel with
    | some hlabelled => exact ⟨rule, rfl, hlabelled⟩

omit [Std.TransOrd α] in
theorem isWinner_highestCode (h : List.Forall₂ Rule.LabelledBy rules entries) {c : Option α}
    (hc : IsGreatestLabel entries w c) : IsWinner .highestCode rules w c := by
  have hentry : ∀ rule ∈ rules, ∃ e ∈ entries, rule.LabelledBy e := by
    intro rule hmem
    obtain ⟨i, hi⟩ := List.mem_iff_getElem?.1 hmem
    obtain ⟨e, he, hlabelled⟩ := exists_entry h hi
    exact ⟨e, List.mem_of_getElem? he, hlabelled⟩
  cases c with
  | none =>
    intro rule hmem hw
    obtain ⟨e, he, hmatches, -⟩ := hentry rule hmem
    exact hc e he ((hmatches w).2 hw)
  | some c =>
    obtain ⟨⟨e, he, rfl, hw⟩, hmax⟩ := hc
    refine ⟨?_, ?_⟩
    · obtain ⟨i, hi⟩ := List.mem_iff_getElem?.1 he
      obtain ⟨rule, hrule, hmatches, hcode⟩ := exists_rule h hi
      exact ⟨rule, List.mem_of_getElem? hrule, (hmatches w).1 hw, hcode.symm⟩
    · intro rule hmem hw'
      obtain ⟨e', he', hmatches, hcode⟩ := hentry rule hmem
      rw [← hcode]
      exact hmax e' he' ((hmatches w).2 hw')

/-- The entries with labels that hold the places of the rules. -/
def placed (entries : List (Fragment Char × α)) : List (Fragment Char × Label α) :=
  entries.zipIdx.map fun ((fragment, code), place) => (fragment, ⟨place, code⟩)

omit [Ord α] [Std.TransOrd α] in
theorem mem_placed {f : Fragment Char} {i : Nat} {c : α} :
    (f, (⟨i, c⟩ : Label α)) ∈ placed entries ↔ entries[i]? = some (f, c) := by
  rw [placed, List.mem_map]
  constructor
  · rintro ⟨⟨⟨f', c'⟩, i'⟩, hmem, heq⟩
    cases heq
    exact List.mem_zipIdx_iff_getElem?.1 hmem
  · intro h
    exact ⟨((f, c), i), List.mem_zipIdx_iff_getElem?.2 h, rfl⟩

omit [Std.TransOrd α] in
theorem isWinner_firstDeclared (h : List.Forall₂ Rule.LabelledBy rules entries)
    {c : Option (Label α)} (hc : IsGreatestLabel (placed entries) w c) :
    IsWinner .firstDeclared rules w (c.map Label.code) := by
  have hentry : ∀ {i rule}, rules[i]? = some rule → w ∈ rule.language →
      ∃ f c, (f, (⟨i, c⟩ : Label α)) ∈ placed entries ∧ f.Matches w := by
    intro i rule hi hw
    obtain ⟨e, he, hmatches, -⟩ := exists_entry h hi
    exact ⟨e.1, e.2, mem_placed.2 he, (hmatches w).2 hw⟩
  cases c with
  | none =>
    intro rule hmem hw
    obtain ⟨i, hi⟩ := List.mem_iff_getElem?.1 hmem
    obtain ⟨f, c, hplaced, hf⟩ := hentry hi hw
    exact hc _ hplaced hf
  | some label =>
    obtain ⟨⟨⟨f, ⟨i, c⟩⟩, he, rfl, hw⟩, hmax⟩ := hc
    obtain ⟨rule, hi, hmatches, hcode⟩ := exists_rule h (mem_placed.1 he)
    refine ⟨i, rule, hi, (hmatches w).1 hw, hcode.symm, ?_⟩
    intro j hj rule' hj' hw'
    obtain ⟨f', c', hplaced, hf'⟩ := hentry hj' hw'
    have hle : i ≤ j := place_le_of_compare (hmax _ hplaced hf')
    omega

end Winners

/-- Rules that have fragments are compiled without a fault. -/
theorem determinizeBy_eq {rules : List (Rule α)} {entries : List (Fragment Char × α)}
    (policy : TieBreak) (h : List.Forall₂ Rule.LabelledBy rules entries) :
    ∃ d, determinizeBy policy entries = .ok d ∧ d.Connected ∧
      ∀ w, IsWinner policy rules w (d.codeAfter d.start w) := by
  cases policy with
  | highestCode =>
    obtain ⟨d, hd, hconnected, hgreatest⟩ := determinizeRules_eq entries
    exact ⟨d, hd, hconnected, fun w => isWinner_highestCode h (hgreatest w)⟩
  | firstDeclared =>
    obtain ⟨d, hd, hconnected, hgreatest⟩ := determinizeRules_eq (placed entries)
    refine ⟨d.mapCodes Label.code, ?_, hconnected.mapCodes _, fun w => ?_⟩
    · have hmap : determinizeBy .firstDeclared entries =
          Dfa.mapCodes Label.code <$> determinizeRules (placed entries) := rfl
      rw [hmap, hd]
      rfl
    · rw [Dfa.codeAfter_mapCodes]
      exact isWinner_firstDeclared h (hgreatest w)

/-! ## The compiled automaton -/

section Compiled

variable [DecidableEq α] {config : Config} {rules : List (Rule α)} {d : Dfa Char α}

omit [Std.TransOrd α] in
/-- After determinization the automaton is at most minimized. -/
theorem compile_of_determinizeBy {entries : List (Fragment Char × α)}
    (h : labelledFragments rules = .ok entries) (hd : determinizeBy config.tieBreak entries = .ok d) :
    compile config rules = if config.minimize then d.minimize?.mapError .fault else .ok d := by
  rw [compile, h]
  show ((determinizeBy config.tieBreak entries).mapError CompileError.fault >>= _) = _
  rw [hd]
  rfl

/-- Compilation fails only if some rule has no fragment. -/
theorem compile_eq (config : Config) {entries : List (Fragment Char × α)}
    (h : labelledFragments rules = .ok entries) :
    ∃ d, compile config rules = .ok d ∧ d.Connected ∧ (config.minimize = true → d.Apart) ∧
      ∀ w, IsWinner config.tieBreak rules w (d.codeAfter d.start w) := by
  obtain ⟨d, hd, hconnected, hwinner⟩ := determinizeBy_eq config.tieBreak (labelledFragments_eq h)
  rw [compile_of_determinizeBy h hd]
  by_cases hmin : config.minimize = true
  · obtain ⟨d', hd', hconnected', hapart, hcodes⟩ := hconnected.minimize?_eq
    refine ⟨d', ?_, hconnected', fun _ => hapart, fun w => ?_⟩
    · rw [if_pos hmin, hd']
      rfl
    · rw [hcodes]
      exact hwinner w
  · exact ⟨d, if_neg hmin, hconnected, fun h => absurd h hmin, hwinner⟩

omit [Std.TransOrd α] in
theorem exists_entries_of_compile (h : compile config rules = .ok d) :
    ∃ entries, labelledFragments rules = .ok entries := by
  cases hentries : labelledFragments rules with
  | error e =>
    rw [compile, hentries] at h
    cases h
  | ok entries => exact ⟨entries, rfl⟩

theorem compiled (h : compile config rules = .ok d) :
    d.Connected ∧ (config.minimize = true → d.Apart) ∧
      ∀ w, IsWinner config.tieBreak rules w (d.codeAfter d.start w) := by
  obtain ⟨entries, hentries⟩ := exists_entries_of_compile h
  obtain ⟨d', hd', hcompiled⟩ := compile_eq config hentries
  rw [h] at hd'
  cases hd'
  exact hcompiled

/-- The longest match of the compiled automaton is the longest beginning of the input that some rule
matches, with the code of the rule that wins for it. -/
theorem compile_longestMatch (h : compile config rules = .ok d) (input : List Char) :
    ∃ m, d.longestMatch input = .ok m ∧ LongestWin config.tieBreak rules input m := by
  obtain ⟨hconnected, -, hwinner⟩ := compiled h
  obtain ⟨m, hm, hlongest⟩ := hconnected.wellFormed.longestMatch_eq hconnected.deadInert input
  have hnone : ∀ {k}, d.codeAfter d.start (input.take k) = none →
      ∀ rule ∈ rules, input.take k ∉ rule.language := by
    intro k hk
    have hw := hwinner (input.take k)
    rw [hk] at hw
    exact hw
  refine ⟨m, hm, ?_⟩
  match m with
  | none => exact fun k hk hk' => hnone (hlongest k hk hk')
  | some (n, c) =>
    obtain ⟨hpos, hn, hc, hmax⟩ := hlongest
    have hcode : d.codeAfter d.start (input.take n) = some c := hc
    have hw := hwinner (input.take n)
    rw [hcode] at hw
    exact ⟨hpos, hn, hw, fun k hk hk' => hnone (hmax k hk hk')⟩

end Compiled

/-- A keyword, and the names it is one of. -/
def keywordRules : List (Rule Nat) := [.literal "if" 1, .regex "[a-z]+" 2]

theorem exists_keywordEntries : ∃ entries, labelledFragments keywordRules = .ok entries := by
  have hok : (labelledFragments keywordRules).toBool = true := by decide +kernel
  cases h : labelledFragments keywordRules with
  | ok entries => exact ⟨entries, rfl⟩
  | error e =>
    rw [h] at hok
    cases hok

theorem keywordRules_longestMatch :
    ∃ d, compile ⟨true, .firstDeclared⟩ keywordRules = .ok d ∧ ∀ input,
      ∃ m, d.longestMatch input = .ok m ∧ LongestWin .firstDeclared keywordRules input m := by
  obtain ⟨entries, hentries⟩ := exists_keywordEntries
  obtain ⟨d, hd, -⟩ := compile_eq ⟨true, .firstDeclared⟩ hentries
  exact ⟨d, hd, compile_longestMatch hd⟩

/-- Every state of a minimized automaton is reached, any two states are told apart by the code that
some word ends on, and there are as many states as residuals of the winner. -/
theorem compile_minimal [DecidableEq α] [Std.LawfulEqOrd α] {config : Config}
    {rules : List (Rule α)} {d : Dfa Char α} (hmin : config.minimize = true)
    (h : compile config rules = .ok d) :
    (∀ i < d.size, ∃ word, d.run? d.start word = .ok (some i)) ∧
      (∀ i < d.size, ∀ j < d.size, i ≠ j → ∃ word c c',
        d.codeAfter? i word = .ok c ∧ d.codeAfter? j word = .ok c' ∧ c ≠ c') ∧
      (Set.range fun u w => winner? config.tieBreak rules (u ++ w)).encard = d.size := by
  obtain ⟨hconnected, hapart, hwinner⟩ := compiled h
  have hwf := hconnected.wellFormed
  have hcode : ∀ {i}, i < d.size → ∀ word, d.codeAfter? i word = .ok (d.codeAfter i word) :=
    fun hi => hwf.codeAfter?_eq hconnected.deadInert hi
  refine ⟨?_, ?_, ?_⟩
  · intro i hi
    obtain ⟨word, hword⟩ := hconnected.reached hi
    exact ⟨word, by rw [hwf.run?_eq hwf.1, hword]⟩
  · intro i hi j hj hij
    obtain ⟨word, hword⟩ := hapart hmin i hi j hj hij
    exact ⟨word, _, _, hcode hi word, hcode hj word, hword⟩
  · have heq : winner? config.tieBreak rules = d.codeAfter d.start :=
      funext fun w => (hwinner w).winner?_eq
    rw [heq]
    exact hconnected.encard_residuals (hapart hmin)

theorem keywordRules_minimal :
    ∃ d, compile ⟨true, .highestCode⟩ keywordRules = .ok d ∧
      (∀ i < d.size, ∃ word, d.run? d.start word = .ok (some i)) ∧
      (Set.range fun u w => winner? .highestCode keywordRules (u ++ w)).encard = d.size := by
  obtain ⟨entries, hentries⟩ := exists_keywordEntries
  obtain ⟨d, hd, -⟩ := compile_eq ⟨true, .highestCode⟩ hentries
  obtain ⟨hreached, -, hcount⟩ := compile_minimal rfl hd
  exact ⟨d, hd, hreached, hcount⟩

end Munch
