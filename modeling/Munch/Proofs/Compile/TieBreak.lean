-- SUMMARY: The two policies make automata that differ in codes only, and not at all if codes descend.
import Munch.Proofs.Compile
import Munch.Proofs.Dfa.Codes

/-! # Policies

The policies give other labels to the same fragments: codes, or codes behind
the places of their rules. A code is a function of its label, and one that
keeps the order of labels if no rule has a greater code than one before it. -/

namespace Munch

/-! ## Automata apart from their codes -/

namespace Dfa

variable {σ α β : Type} [Symbol σ] {d d' : Dfa σ α}

/-- The automata differ at most in which code a state carries, not in whether it carries one. -/
structure SameButCodes (d d' : Dfa σ α) : Prop where
  start_eq : d.start = d'.start
  dead_eq : d.dead = d'.dead
  states : List.Forall₂
    (fun s s' => s.transitions = s'.transitions ∧ s.code.isSome = s'.code.isSome)
    d.states.toList d'.states.toList

theorem SameButCodes.of_mapCodes {c : β}
    (h : d.mapCodes (fun _ => c) = d'.mapCodes (fun _ => c)) : d.SameButCodes d' := by
  obtain ⟨hstart, hdead, hstates⟩ := Dfa.mk.inj h
  refine ⟨hstart, hdead, ?_⟩
  have hlist := congrArg Array.toList hstates
  rw [Array.toList_map, Array.toList_map, ← List.forall₂_eq_eq_eq, List.forall₂_map_left_iff,
    List.forall₂_map_right_iff] at hlist
  refine hlist.imp fun s s' heq => ?_
  obtain ⟨htransitions, hcode⟩ := State.mk.inj heq
  exact ⟨htransitions, by simpa using congrArg Option.isSome hcode⟩

end Dfa

/-! ## Labels -/

section Labels

variable {α β : Type} [Ord α] [Ord β] {entries : List (Fragment Char × α)}

/-- Labels may be replaced before or after determinization. -/
theorem determinizeRules_mapCodes {f : α → β}
    (hf : Nfa.KeepsGreater f fun c => ∃ e ∈ entries, e.2 = c) :
    determinizeRules (entries.map (Prod.map id f)) = Dfa.mapCodes f <$> determinizeRules entries := by
  have hcodes : Nfa.KeepsGreater f fun c => ∃ i, (Nfa.ofRules entries).code? i = some c := by
    rintro a b ⟨i, hi⟩ ⟨j, hj⟩
    exact hf a b (Nfa.exists_rule_of_code hi) (Nfa.exists_rule_of_code hj)
  rw [determinizeRules, determinizeRules, Nfa.ofRules_mapCodes, Nfa.determinize_mapCodes hcodes,
    Functor.map_map, Functor.map_map]
  rfl

omit [Ord α] in
theorem map_code_placed (entries : List (Fragment Char × α)) :
    (placed entries).map (Prod.map id Label.code) = entries := by
  rw [placed, List.map_map]
  exact List.zipIdx_map_fst ..

/-- Without their codes the automata of both policies are the same. -/
theorem determinizeBy_const (policy : TieBreak) (entries : List (Fragment Char × α)) (c : β) :
    Dfa.mapCodes (fun _ => c) <$> determinizeBy policy entries =
      determinizeRules (entries.map (Prod.map id fun _ => c)) := by
  cases policy with
  | highestCode => exact (determinizeRules_mapCodes (Nfa.keepsGreater_const c)).symm
  | firstDeclared =>
    have hentries : (placed entries).map (Prod.map id fun _ => c) =
        entries.map (Prod.map id fun _ => c) := by
      conv_rhs => rw [← map_code_placed entries, List.map_map]
      rfl
    rw [← hentries, determinizeRules_mapCodes (Nfa.keepsGreater_const c)]
    show _ <$> Dfa.mapCodes Label.code <$> determinizeRules (placed entries) = _
    rw [Functor.map_map]
    simp only [Dfa.mapCodes_mapCodes]
    rfl

variable [Std.TransOrd α] [Std.LawfulEqOrd α]

/-- If codes descend, an earlier place never goes with a smaller code. -/
theorem keepsGreater_code (h : entries.Pairwise fun e later => (compare later.2 e.2).isLE) :
    Nfa.KeepsGreater Label.code fun label => ∃ e ∈ placed entries, e.2 = label := by
  refine Nfa.keepsGreater_of_monotone ?_
  rintro _ _ ⟨⟨f, i, c⟩, he, rfl⟩ ⟨⟨f', j, c'⟩, he', rfl⟩ hle
  obtain ⟨hi, heq⟩ := List.getElem?_eq_some_iff.1 (mem_placed.1 he)
  obtain ⟨hj, heq'⟩ := List.getElem?_eq_some_iff.1 (mem_placed.1 he')
  have hplace : j ≤ i := place_le_of_compare hle
  rcases Nat.lt_or_eq_of_le hplace with hlt | rfl
  · have hcode := List.pairwise_iff_getElem.1 h j i hj hi hlt
    rw [heq, heq'] at hcode
    exact hcode
  · cases heq.symm.trans heq'
    exact Std.ReflCmp.isLE_rfl

omit [Std.TransOrd α] [Std.LawfulEqOrd α] in
theorem descending_entries {rules : List (Rule α)}
    (h : List.Forall₂ Rule.LabelledBy rules entries)
    (hrules : rules.Pairwise fun rule later => (compare later.code rule.code).isLE) :
    entries.Pairwise fun e later => (compare later.2 e.2).isLE := by
  have hcodes : entries.map Prod.snd = rules.map Rule.code := by
    induction h with
    | nil => rfl
    | cons hentry _ ih =>
      rw [List.map_cons, List.map_cons, hentry.2, ih hrules.of_cons]
  rw [← List.pairwise_map (f := Prod.snd) (R := fun c c' => (compare c' c).isLE), hcodes]
  exact List.pairwise_map.2 hrules

theorem determinizeBy_of_descending
    (h : entries.Pairwise fun e later => (compare later.2 e.2).isLE) :
    determinizeBy .highestCode entries = determinizeBy .firstDeclared entries := by
  show determinizeRules entries = Dfa.mapCodes Label.code <$> determinizeRules (placed entries)
  rw [← determinizeRules_mapCodes (keepsGreater_code h), map_code_placed]

end Labels

/-! ## Compiled automata -/

variable {α : Type} [Ord α] [Std.TransOrd α] [Std.LawfulEqOrd α] [DecidableEq α]

/-- If no rule has a greater code than one before it, it makes no difference by which policy the
rules are compiled. With any codes the automata before minimization differ at most in which codes
the states carry. -/
theorem compile_policies (rules : List (Rule α)) :
    ((rules.Pairwise fun rule later => (compare later.code rule.code).isLE) → ∀ minimize,
      compile ⟨minimize, .highestCode⟩ rules = compile ⟨minimize, .firstDeclared⟩ rules) ∧
    ((∃ e, ∀ config, compile config rules = .error e) ∨
      ∃ d d', compile ⟨false, .highestCode⟩ rules = .ok d ∧
        compile ⟨false, .firstDeclared⟩ rules = .ok d' ∧ d.SameButCodes d') := by
  cases hentries : labelledFragments rules with
  | error e =>
    have herror : ∀ config, compile config rules = .error (.pattern e) := by
      intro config
      rw [compile, hentries]
      rfl
    refine ⟨fun _ minimize => ?_, .inl ⟨.pattern e, herror⟩⟩
    rw [herror, herror]
  | ok entries =>
    have hlabelled := labelledFragments_eq hentries
    obtain ⟨d, hd, -⟩ := determinizeBy_eq .highestCode hlabelled
    obtain ⟨d', hd', -⟩ := determinizeBy_eq .firstDeclared hlabelled
    refine ⟨fun hdescend minimize => ?_, .inr ⟨d, d', ?_, ?_, ?_⟩⟩
    · have hsame : d = d' := by
        have hpolicies := determinizeBy_of_descending (descending_entries hlabelled hdescend)
        rw [hd, hd'] at hpolicies
        exact Except.ok.inj hpolicies
      rw [compile_of_determinizeBy hentries hd, compile_of_determinizeBy hentries hd', hsame]
    · exact compile_of_determinizeBy hentries hd
    · exact compile_of_determinizeBy hentries hd'
    · have hconst := (determinizeBy_const .highestCode entries 0).trans
        (determinizeBy_const .firstDeclared entries 0).symm
      rw [hd, hd'] at hconst
      exact .of_mapCodes (Except.ok.inj hconst)

/-- Names, two keywords with the code of names, and one with a smaller code. -/
def nameRules : List (Rule Nat) :=
  [.regex "[a-z]+" 2, .literal "if" 2, .regex "o(f|n)" 1]

theorem nameRules_policies :
    (nameRules.Pairwise fun rule later => (compare later.code rule.code).isLE) ∧
      ∃ d, compile ⟨true, .highestCode⟩ nameRules = .ok d ∧
        compile ⟨true, .firstDeclared⟩ nameRules = .ok d := by
  have hdescend : nameRules.Pairwise fun rule later => (compare later.code rule.code).isLE := by
    decide
  have hread : (fun _ => ()) <$> labelledFragments nameRules = .ok () := by decide +kernel
  obtain ⟨entries, hentries, -⟩ := Checked.map_eq_ok hread
  obtain ⟨d, hd, -⟩ := compile_eq ⟨true, .highestCode⟩ hentries
  exact ⟨hdescend, d, hd, (compile_policies nameRules).1 hdescend true ▸ hd⟩

end Munch
