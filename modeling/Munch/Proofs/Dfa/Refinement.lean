-- SUMMARY: The rounds of the refinement, the fixed point they reach, and what it says about words.
import Munch.Proofs.Checked
import Munch.Proofs.Dfa.Partition
import Munch.Proofs.Dfa.Steps

/-! # Refinement

After `k` rounds two states are in the same group if and only if they are the
`Same` up to `k` steps: they have the same code, and every symbol leads to
states that are the same up to `k - 1` steps. Every round but the last makes
more groups, so the rounds end in a partition that one more does not change. -/

namespace Munch.Dfa

open RangeSet (Labels)
open Munch.Dfa.Partition (classes index)

variable {σ α : Type} [Symbol σ] {d : Dfa σ α}

/-! ## Successors -/

/-- The state that a symbol leads to; a missing transition counts as one to the dead state. -/
def succ (d : Dfa σ α) (id : Nat) (x : σ) : Option Nat := d.next id x <|> d.dead

theorem WellFormed.succ_lt (h : d.WellFormed) {id target : Nat} {x : σ}
    (hsucc : d.succ id x = some target) : target < d.size := by
  unfold succ at hsucc
  cases hnext : d.next id x with
  | none => rw [hnext] at hsucc; exact h.2.1 target hsucc
  | some t => rw [hnext] at hsucc; cases hsucc; exact h.next_lt hnext

/-- Words may be read along successors, as nothing is read from the dead state. -/
theorem DeadInert.codeAfter_cons_succ (h : d.DeadInert) (id : Nat) (x : σ) (rest : List σ) :
    d.codeAfter id (x :: rest) = (d.succ id x).bind fun target => d.codeAfter target rest := by
  rw [codeAfter_cons, succ]
  cases d.next id x with
  | some target => rfl
  | none =>
    cases hd : d.dead with
    | none => rfl
    | some k => exact (h.codeAfter_eq hd rest).symm

/-! ## States that are the same for some steps -/

def Same (d : Dfa σ α) : Nat → Nat → Nat → Prop
  | 0, a, b => d.code a = d.code b
  | k + 1, a, b => d.Same k a b ∧ ∀ x, Option.Rel (d.Same k) (d.succ a x) (d.succ b x)

theorem rel_equivalence {r : Nat → Nat → Prop} (h : Equivalence r) :
    Equivalence (Option.Rel r) where
  refl o := by
    cases o with
    | none => exact .none
    | some a => exact .some (h.refl a)
  symm := by
    rintro _ _ (hab | _)
    · exact .some (h.symm hab)
    · exact .none
  trans := by
    rintro _ _ _ (hab | _) hbc
    · cases hbc with
      | some hbc => exact .some (h.trans hab hbc)
    · exact hbc

/-- To be related, and to be led to related states by every symbol, is an equivalence again. -/
theorem succ_equivalence (d : Dfa σ α) {r : Nat → Nat → Prop} (hr : Equivalence r) :
    Equivalence fun a b => r a b ∧ ∀ x, Option.Rel r (d.succ a x) (d.succ b x) := by
  have hrel := rel_equivalence hr
  refine ⟨fun a => ⟨hr.refl a, fun x => hrel.refl _⟩, ?_, ?_⟩
  · intro a b h
    exact ⟨hr.symm h.1, fun x => hrel.symm (h.2 x)⟩
  · intro a b c h h'
    exact ⟨hr.trans h.1 h'.1, fun x => hrel.trans (h.2 x) (h'.2 x)⟩

theorem same_equivalence (d : Dfa σ α) (k : Nat) : Equivalence (d.Same k) := by
  induction k with
  | zero => exact ⟨fun _ => rfl, fun h => h.symm, fun h h' => h.trans h'⟩
  | succ k ih => exact d.succ_equivalence ih

theorem Same.code_eq {k a b : Nat} (h : d.Same k a b) : d.code a = d.code b := by
  induction k with
  | zero => exact h
  | succ k ih => exact ih h.1

/-! ## One round -/

section Round

variable {r : Nat → Nat → Prop}

theorem map_index_eq_iff (hr : Equivalence r) {count : Nat} {o o' : Option Nat}
    (ho : ∀ i ∈ o, i < count) (ho' : ∀ i ∈ o', i < count) :
    o.map (index r count) = o'.map (index r count) ↔ Option.Rel r o o' := by
  match o, o' with
  | none, none => exact iff_of_true rfl .none
  | none, some b => exact iff_of_false (by simp) (by rintro ⟨⟩)
  | some a, none => exact iff_of_false (by simp) (by rintro ⟨⟩)
  | some a, some b =>
    rw [Option.map_some, Option.map_some, Option.some_inj,
      Partition.index_eq_iff hr (ho a rfl) (ho' b rfl)]
    exact ⟨.some, fun h => by cases h; assumption⟩

omit [Symbol σ] in
theorem mapM_groupOf?_classes {count : Nat} {o : Option Nat} (ho : ∀ i ∈ o, i < count) :
    (o.mapM (groupOf? ((classes r count).table count)) : Except (Fault σ) (Option Nat)) =
      .ok (o.map (index r count)) := by
  cases o with
  | none => rfl
  | some i =>
    rw [Option.mapM_some, groupOf?, Partition.table_classes (ho i rfl)]
    rfl

/-- All symbols of an uncut piece lead to the same group. -/
theorem WellFormed.successorGroup?_eq (h : d.WellFormed) {id : Nat} (hid : id < d.size)
    {sets : List (RangeSet σ)} (hsets : ∀ t ∈ d.transitions id, t.1 ∈ sets)
    {piece : RangeSet σ} (hpiece : piece ∈ Splitter.atoms sets) {x : σ} (hx : x ∈ piece) :
    d.successorGroup? ((classes r d.size).table d.size) id piece =
      .ok ((d.succ id x).map (index r d.size)) := by
  have hfilter : (d.transitions id).filter (!·.1.isDisjoint piece) =
      ((d.transitions id).find? (·.1.contains x)).toList := by
    rw [← h.filter_transitions]
    refine List.filter_congr fun t ht => ?_
    rw [Splitter.isDisjoint_atom (hsets t ht) hpiece hx, Bool.not_not]
  have hnext : d.nextStates? id piece = .ok (d.next id x).toList := by
    rw [nextStates?, transitions?_eq hid, next]
    show Except.ok (((d.transitions id).filter (!·.1.isDisjoint piece)).map Prod.snd) = _
    rw [hfilter]
    cases (d.transitions id).find? (·.1.contains x) <;> rfl
  have hmap := mapM_groupOf?_classes (σ := σ) (r := r) (o := d.succ id x) fun _ => h.succ_lt
  rw [← hmap, successorGroup?, hnext, succ]
  cases d.next id x <;> rfl

open Classical in
theorem WellFormed.apartBySuccessors?_eq (h : d.WellFormed) (hr : Equivalence r) {a b : Nat}
    (ha : a < d.size) (hb : b < d.size) :
    d.apartBySuccessors? ((classes r d.size).table d.size) a b =
      .ok (decide (¬ ∀ x, Option.Rel r (d.succ a x) (d.succ b x))) := by
  rw [apartBySuccessors?, transitions?_eq ha, transitions?_eq hb]
  show List.anyM _ (Splitter.atoms ((d.transitions a ++ d.transitions b).map Prod.fst)) = _
  have hparts := Splitter.atoms_isPartition ((d.transitions a ++ d.transitions b).map Prod.fst)
  have hpiece : ∀ piece ∈ Splitter.atoms ((d.transitions a ++ d.transitions b).map Prod.fst),
      ∀ x ∈ piece, (do
        return (← d.successorGroup? ((classes r d.size).table d.size) a piece) !=
          (← d.successorGroup? ((classes r d.size).table d.size) b piece) :
          Except (Fault σ) Bool) =
        .ok (decide (¬ Option.Rel r (d.succ a x) (d.succ b x))) := by
    intro piece hmem x hx
    rw [h.successorGroup?_eq ha (by grind) hmem hx, h.successorGroup?_eq hb (by grind) hmem hx]
    show Except.ok _ = _
    congr 1
    rw [bne, beq_eq_decide, decide_not,
      decide_eq_decide.2 (map_index_eq_iff hr (fun _ => h.succ_lt) (fun _ => h.succ_lt))]
  rw [Checked.anyM_eq (g := fun piece => decide (∃ x ∈ piece,
    ¬ Option.Rel r (d.succ a x) (d.succ b x)))]
  · congr 1
    rw [Bool.eq_iff_iff, List.any_eq_true]
    simp only [decide_eq_true_eq, not_forall]
    constructor
    · rintro ⟨piece, -, x, -, hx⟩
      exact ⟨x, hx⟩
    · rintro ⟨x, hx⟩
      obtain ⟨piece, hmem, hxp⟩ := hparts.cover x
      exact ⟨piece, hmem, x, hxp, hx⟩
  · intro piece hmem
    -- One symbol of the piece stands for all.
    obtain ⟨x, hx⟩ := hparts.nonempty hmem
    rw [hpiece piece hmem x hx]
    congr 1
    rw [decide_eq_decide]
    constructor
    · exact fun hx' => ⟨x, hx, hx'⟩
    · rintro ⟨y, hy, hy'⟩
      have := (hpiece piece hmem x hx).symm.trans (hpiece piece hmem y hy)
      simpa [hy'] using this

theorem WellFormed.refine?_eq (h : d.WellFormed) (hr : Equivalence r) :
    d.refine? (classes r d.size) =
      .ok (classes (fun a b => r a b ∧ ∀ x, Option.Rel r (d.succ a x) (d.succ b x)) d.size) := by
  refine Partition.ofTest_eq_classes (d.succ_equivalence hr) ?_
  intro a ha b hb
  have hindex := Partition.index_eq_iff hr ha hb
  rw [Partition.table_classes ha, Partition.table_classes hb]
  by_cases hab : r a b
  · rw [hindex.2 hab, if_neg (not_not.2 rfl), h.apartBySuccessors?_eq hr ha hb]
    simp [hab]
  · rw [if_pos (mt Option.some_inj.1 (mt hindex.1 hab))]
    simp [hab]

end Round

/-! ## All rounds -/

theorem codeClasses?_eq [DecidableEq α] (d : Dfa σ α) :
    d.codeClasses? = .ok (classes (d.Same 0) d.size) := by
  refine Partition.ofTest_eq_classes (same_equivalence d 0) ?_
  intro a ha b hb
  rw [code?_eq ha, code?_eq hb]
  show Except.ok (d.code a != d.code b) = _
  congr 1
  by_cases h : d.code a = d.code b <;> simp [Same, h]

theorem WellFormed.refine?_same (h : d.WellFormed) (k : Nat) :
    d.refine? (classes (d.Same k) d.size) = .ok (classes (d.Same (k + 1)) d.size) :=
  h.refine?_eq (same_equivalence d k)

/-- With enough rounds left, the last one changes nothing. -/
theorem WellFormed.refineAll?_eq (h : d.WellFormed) (rounds k : Nat)
    (henough : d.size < rounds + (classes (d.Same k) d.size).length) :
    ∃ m, d.refineAll? rounds (classes (d.Same k) d.size) = .ok (classes (d.Same m) d.size) ∧
      classes (d.Same (m + 1)) d.size = classes (d.Same m) d.size := by
  induction rounds generalizing k with
  | zero =>
    have := Partition.length_classes_le (d.Same k) d.size
    omega
  | succ rounds ih =>
    rw [refineAll?, h.refine?_same k]
    by_cases hfix : classes (d.Same (k + 1)) d.size = classes (d.Same k) d.size
    · exact ⟨k, if_pos hfix, hfix⟩
    · have hlt := Partition.length_classes_lt (same_equivalence d k) (same_equivalence d (k + 1))
        (fun a b hab => hab.1) hfix
      obtain ⟨m, hm, hstable⟩ := ih (k + 1) (by omega)
      refine ⟨m, ?_, hstable⟩
      rw [← hm]
      exact if_neg hfix

/-- The refinement ends in the classes of a relation that successors keep. -/
theorem WellFormed.classes?_eq [DecidableEq α] (h : d.WellFormed) :
    ∃ m, d.classes? = .ok (classes (d.Same m) d.size) ∧
      classes (d.Same (m + 1)) d.size = classes (d.Same m) d.size := by
  have hpos := Partition.length_classes_pos (same_equivalence d 0) (Nat.zero_lt_of_lt h.1)
  rw [classes?, codeClasses?_eq]
  exact h.refineAll?_eq d.size 0 (by omega)

/-! ## Words -/

/-- Related states have the same code, and symbols lead to related states. -/
structure Stable (d : Dfa σ α) (r : Nat → Nat → Prop) : Prop where
  code_eq : ∀ {a b}, r a b → d.code a = d.code b
  succ_rel : ∀ {a b}, a < d.size → b < d.size → r a b →
    ∀ x, Option.Rel r (d.succ a x) (d.succ b x)

theorem same_stable {m : Nat}
    (h : classes (d.Same (m + 1)) d.size = classes (d.Same m) d.size) : d.Stable (d.Same m) where
  code_eq := Same.code_eq
  succ_rel := by
    intro a b ha hb hab
    exact (Partition.rel_of_classes_eq (same_equivalence d m) (same_equivalence d (m + 1)) h.symm
      ha hb hab).2

theorem Stable.codeAfter_eq {r : Nat → Nat → Prop} (hs : d.Stable r) (h : d.WellFormed)
    (hdead : d.DeadInert) {a b : Nat} (ha : a < d.size) (hb : b < d.size) (hab : r a b)
    (word : List σ) : d.codeAfter a word = d.codeAfter b word := by
  induction word generalizing a b with
  | nil => exact hs.code_eq hab
  | cons x rest ih =>
    rw [hdead.codeAfter_cons_succ, hdead.codeAfter_cons_succ]
    have hrel := hs.succ_rel ha hb hab x
    generalize hsa : d.succ a x = o, hsb : d.succ b x = o' at hrel ⊢
    cases hrel with
    | none => rfl
    | some hst => exact ih (h.succ_lt hsa) (h.succ_lt hsb) hst

end Munch.Dfa
