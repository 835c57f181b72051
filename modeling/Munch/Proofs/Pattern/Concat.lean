-- SUMMARY: Concatenations of concatenations are concatenations, unless something is hidden in them.
import Munch.Proofs.Pattern.Offset

/-! # Concatenation

A concatenation is flattened by one level. That is enough for trees in which
nothing is hidden one level further down: the parts may then be concatenated
before the whole, and none of the items of the result is a concatenation or the
empty string. Parsed trees are such trees. With any other tree an item comes to
light that should have been flattened or removed. -/

namespace Munch.Pattern

variable {p : Pattern} {xs ys : List Pattern}

/-! ## Flattening -/

mutual

/-- What remains of a tree if all concatenations at its top are opened and empty strings removed. -/
def leaves : Pattern → List Pattern
  | .emptyString => []
  | .sequence items => leavesOfEach items
  | p => [p]

def leavesOfEach : List Pattern → List Pattern
  | [] => []
  | p :: ps => p.leaves ++ leavesOfEach ps

end

theorem leavesOfEach_eq (ps : List Pattern) : leavesOfEach ps = ps.flatMap leaves := by
  induction ps with
  | nil => rfl
  | cons p ps ih => rw [leavesOfEach, ih, List.flatMap_cons]

theorem IsFactor.leaves_eq (h : p.IsFactor) : p.leaves = [p] := by
  cases p with
  | emptyString => cases h
  | sequence items => cases h
  | _ => simp [leaves]

/-- One level is all that there is to open: if the tree is a concatenation, its items are factors. -/
def Joinable (p : Pattern) : Prop := ∀ q ∈ p.factors, q.IsFactor

theorem Joinable.leaves_eq (h : p.Joinable) : p.leaves = p.factors := by
  cases p with
  | emptyString => simp [leaves, factors]
  | sequence items =>
    have hitems : ∀ q ∈ items, q.leaves = [q] := fun q hq => (h q hq).leaves_eq
    rw [leaves, leavesOfEach_eq, List.flatMap_congr hitems, ← List.map_eq_flatMap, List.map_id']
    rfl
  | _ => simp [leaves, factors]

theorem Flat.joinable (h : p.Flat) : p.Joinable := fun q hq => (h.factors q hq).1

/-- All is joinable if and only if nothing but factors is put into the concatenation. -/
theorem forall_joinable_iff :
    (∀ p ∈ xs, p.Joinable) ↔ ∀ q ∈ xs.flatMap factors, q.IsFactor := by
  constructor
  · intro h q hq
    obtain ⟨p, hp, hq⟩ := List.mem_flatMap.1 hq
    exact h p hp q hq
  · intro h p hp q hq
    exact h q (List.mem_flatMap.2 ⟨p, hp, hq⟩)

/-! ## Laws -/

theorem ofFactors_eq_sequence {items : List Pattern} (h : ∀ p ∈ xs, p.IsFactor)
    (heq : ofFactors xs = .sequence items) : items = xs ∧ 2 ≤ items.length := by
  match xs with
  | [] => cases heq
  | [p] =>
    have hp := h p List.mem_cons_self
    rw [show p = .sequence items from heq] at hp
    cases hp
  | p :: q :: ps =>
    cases heq
    exact ⟨rfl, by simp⟩

/-- A concatenation adds to another one what its items would have added. -/
theorem factors_concat (h : ∀ p ∈ xs, p.Joinable) : (concat xs).factors = xs.flatMap factors :=
  factors_ofFactors (forall_joinable_iff.1 h)

/-- Two lists of trees are concatenated as they should be: opened entirely, no matter whether in one
step or each list by itself, and without an item that is left to be opened or removed. -/
structure Normalizes (xs ys : List Pattern) : Prop where
  flattened : concat (xs ++ ys) = ofFactors ((xs ++ ys).flatMap leaves)
  joined : concat [concat xs, concat ys] = concat (xs ++ ys)
  again : concat [concat xs] = concat xs
  factors : ∀ items, concat (xs ++ ys) = .sequence items →
    2 ≤ items.length ∧ ∀ p ∈ items, p.IsFactor

theorem normalizes (hxs : ∀ p ∈ xs, p.Joinable) (hys : ∀ p ∈ ys, p.Joinable) :
    Normalizes xs ys := by
  have hall : ∀ p ∈ xs ++ ys, p.Joinable := fun p hp => (List.mem_append.1 hp).elim (hxs p) (hys p)
  refine ⟨?_, ?_, ?_, ?_⟩
  · rw [concat, List.flatMap_congr fun p hp => (hall p hp).leaves_eq]
  · rw [concat, List.flatMap_cons, List.flatMap_cons, List.flatMap_nil, List.append_nil,
      factors_concat hxs, factors_concat hys, ← List.flatMap_append, concat]
  · rw [concat, List.flatMap_cons, List.flatMap_nil, List.append_nil, factors_concat hxs, concat]
  · intro items heq
    obtain ⟨rfl, hlength⟩ := ofFactors_eq_sequence (forall_joinable_iff.1 hall) heq
    exact ⟨hlength, forall_joinable_iff.1 hall⟩

/-- What is hidden in a tree comes to light in front of two letters. -/
theorem joinable_of_normalizes (h : Normalizes xs [.single 'a', .single 'b']) :
    ∀ p ∈ xs, p.Joinable := by
  have hconcat : concat (xs ++ [.single 'a', .single 'b']) =
      .sequence (xs.flatMap Pattern.factors ++ [.single 'a', .single 'b']) := by
    rw [concat, List.flatMap_append]
    show ofFactors (_ ++ [.single 'a', .single 'b']) = _
    rcases xs.flatMap Pattern.factors with _ | ⟨p, _ | ⟨q, ps⟩⟩
    · rfl
    · rfl
    · rfl
  refine forall_joinable_iff.2 fun q hq => ?_
  exact (h.factors _ hconcat).2 q (List.mem_append_left _ hq)

/-- Joinable trees, and no others, are concatenated as they should be with all joinable trees. Trees
of parsed patterns are joinable. -/
theorem concat_normalizes (xs : List Pattern) :
    ((∀ p ∈ xs, p.Joinable) ↔
      ∀ ys : List Pattern, (∀ p ∈ ys, p.Joinable) → Normalizes xs ys) ∧
    ((∀ p ∈ xs, ∃ text : String, text.length < 2147483648 ∧ parse text = .ok p) →
      ∀ p ∈ xs, p.Joinable) := by
  refine ⟨⟨fun hxs ys hys => normalizes hxs hys, fun h => ?_⟩, fun hparsed p hp => ?_⟩
  · refine joinable_of_normalizes (h _ ?_)
    simp [Joinable, Pattern.factors, IsFactor]
  · obtain ⟨text, htext, heq⟩ := hparsed p hp
    obtain ⟨t, -, rfl⟩ := exists_written htext heq
    exact t.flat.joinable

/-- A concatenation of one item is not flat, but it is joinable. -/
theorem concat_normalizes_single :
    (∀ p ∈ [sequence [.single 'a'], .emptyString], p.Joinable) ∧
      Normalizes [sequence [.single 'a'], .emptyString] [.sequence [.single 'b', .single 'c']] := by
  have hxs : ∀ p ∈ [sequence [.single 'a'], .emptyString], p.Joinable := by
    simp [Joinable, Pattern.factors, IsFactor]
  refine ⟨hxs, (concat_normalizes _).1.1 hxs _ ?_⟩
  simp [Joinable, Pattern.factors, IsFactor]

/-- An empty string that is hidden in a concatenation stays there, and a concatenation that is hidden
in another one is opened only if the result is concatenated again. -/
theorem hidden_not_normalized :
    concat [.sequence [.emptyString, .single 'a', .single 'b']] =
        .sequence [.emptyString, .single 'a', .single 'b'] ∧
      ¬ Normalizes [.sequence [.emptyString, .single 'a', .single 'b']] [] ∧
      concat [concat [.sequence [.sequence [.single 'a']]]] ≠
        concat [.sequence [.sequence [.single 'a']]] ∧
      concat [concat [.sequence [.sequence [.single 'a']]], concat []] ≠
        concat ([.sequence [.sequence [.single 'a']]] ++ []) := by
  refine ⟨rfl, fun h => ?_, nofun, nofun⟩
  exact (h.factors _ rfl).2 .emptyString List.mem_cons_self

end Munch.Pattern
