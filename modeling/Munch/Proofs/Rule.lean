-- SUMMARY: The language of a rule, which rule wins for a word, and the labelled fragments of rules.
import Munch.Compile
import Munch.Proofs.Pattern.Language

/-! # Languages of rules

A word is won by one of the rules whose language holds it: by one with the
greatest code, or by the first one. The longest match of an input is won by the
longest beginning that some rule matches. -/

namespace Munch

variable {α : Type}

/-! ## Winners -/

/-- The words that a rule matches. -/
def Rule.language : Rule α → Language Char
  | literal text _ => {text.toList}
  | regex pattern _ => {w | ∃ tree, Pattern.parse pattern = .ok tree ∧ w ∈ tree.language}

/-- A rule with this code wins for the word. -/
def Wins [Ord α] (policy : TieBreak) (rules : List (Rule α)) (w : List Char) (c : α) : Prop :=
  match policy with
  | .highestCode =>
    (∃ rule ∈ rules, w ∈ rule.language ∧ rule.code = c) ∧
      ∀ rule ∈ rules, w ∈ rule.language → (compare rule.code c).isLE
  | .firstDeclared =>
    ∃ (i : Nat) (rule : Rule α), rules[i]? = some rule ∧ w ∈ rule.language ∧ rule.code = c ∧
      ∀ j < i, ∀ rule' ∈ rules[j]?, w ∉ rule'.language

/-- The code of the rule that wins for the word; none if no rule matches it. -/
def IsWinner [Ord α] (policy : TieBreak) (rules : List (Rule α)) (w : List Char) :
    Option α → Prop
  | none => ∀ rule ∈ rules, w ∉ rule.language
  | some c => Wins policy rules w c

open Classical in
/-- The winning code, as a function of the word. -/
noncomputable def winner? [Ord α] (policy : TieBreak) (rules : List (Rule α)) (w : List Char) :
    Option α :=
  if h : ∃ c, Wins policy rules w c then some h.choose else none

/-- The greatest `n ≥ 1` such that some rule matches the first `n` characters, with the code of the
rule that wins for them. -/
def LongestWin [Ord α] (policy : TieBreak) (rules : List (Rule α)) (input : List Char) :
    Option (Nat × α) → Prop
  | some (n, c) => 1 ≤ n ∧ n ≤ input.length ∧ Wins policy rules (input.take n) c ∧
      ∀ k, n < k → k ≤ input.length → ∀ rule ∈ rules, input.take k ∉ rule.language
  | none => ∀ k, 1 ≤ k → k ≤ input.length → ∀ rule ∈ rules, input.take k ∉ rule.language

section Winners

variable [Ord α] {policy : TieBreak} {rules : List (Rule α)} {w : List Char}

theorem Wins.exists_rule {c : α} (h : Wins policy rules w c) :
    ∃ rule ∈ rules, w ∈ rule.language ∧ rule.code = c := by
  cases policy with
  | highestCode => exact h.1
  | firstDeclared =>
    obtain ⟨i, rule, hrule, hw, hcode, -⟩ := h
    exact ⟨rule, List.mem_of_getElem? hrule, hw, hcode⟩

theorem Wins.unique [Std.OrientedOrd α] [Std.LawfulEqOrd α] {c c' : α}
    (h : Wins policy rules w c) (h' : Wins policy rules w c') : c = c' := by
  cases policy with
  | highestCode =>
    obtain ⟨⟨rule, hrule, hw, rfl⟩, hmax⟩ := h
    obtain ⟨⟨rule', hrule', hw', rfl⟩, hmax'⟩ := h'
    refine Std.LawfulEqOrd.eq_of_compare ?_
    exact Std.OrientedCmp.isLE_antisymm (hmax' rule hrule hw) (hmax rule' hrule' hw')
  | firstDeclared =>
    obtain ⟨i, rule, hrule, hw, rfl, hfirst⟩ := h
    obtain ⟨i', rule', hrule', hw', rfl, hfirst'⟩ := h'
    rcases Nat.lt_trichotomy i i' with hlt | rfl | hlt
    · exact absurd hw (hfirst' i hlt rule hrule)
    · rw [hrule] at hrule'
      cases hrule'
      rfl
    · exact absurd hw' (hfirst i' hlt rule' hrule')

theorem IsWinner.winner?_eq [Std.OrientedOrd α] [Std.LawfulEqOrd α] {c : Option α}
    (h : IsWinner policy rules w c) : winner? policy rules w = c := by
  rw [winner?]
  cases c with
  | none =>
    refine dif_neg ?_
    rintro ⟨c, hc⟩
    obtain ⟨rule, hrule, hw, -⟩ := hc.exists_rule
    exact h rule hrule hw
  | some c =>
    have hex : ∃ c, Wins policy rules w c := ⟨c, h⟩
    rw [dif_pos hex, Wins.unique hex.choose_spec h]

end Winners

/-! ## Fragments -/

theorem Rule.matches_fragment {rule : Rule α} {f : Fragment Char} {w : List Char}
    (h : rule.fragment = .ok f) : f.Matches w ↔ w ∈ rule.language := by
  cases rule with
  | literal text c =>
    cases h
    exact Fragment.matches_literal
  | regex pattern c =>
    obtain ⟨tree, htree, h⟩ := Checked.bind_eq_ok h
    rw [Pattern.matches_toFragment tree h]
    constructor
    · intro hw
      exact ⟨tree, htree, hw⟩
    · rintro ⟨tree', htree', hw⟩
      rw [htree] at htree'
      cases htree'
      exact hw

/-- The fragment has the words of the rule, and its label is the code of the rule. -/
def Rule.LabelledBy (rule : Rule α) (entry : Fragment Char × α) : Prop :=
  (∀ w, entry.1.Matches w ↔ w ∈ rule.language) ∧ entry.2 = rule.code

theorem labelledFragments_eq {rules : List (Rule α)} {entries : List (Fragment Char × α)}
    (h : labelledFragments rules = .ok entries) : List.Forall₂ Rule.LabelledBy rules entries := by
  refine (Checked.forall₂_of_mapM h).imp fun rule entry hentry => ?_
  obtain ⟨f, hf, hentry⟩ := Checked.bind_eq_ok hentry
  cases hentry
  exact ⟨fun w => Rule.matches_fragment hf, rfl⟩

end Munch
