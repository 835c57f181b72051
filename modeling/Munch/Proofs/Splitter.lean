-- SUMMARY: However a splitter is used, its pieces are the classes of symbols that no set tells apart.
import Munch.Proofs.RangeSet.Atoms

/-! # Splitters

Sets may be given to a splitter one by one or in lists. Only which sets they are
decides about the pieces: two symbols are in one piece if each of the sets has
both of them or none. -/

namespace Munch

variable {σ : Type} [Symbol σ]

namespace RangeSet

variable {pieces pieces' sets sets' : List (RangeSet σ)} {p q : RangeSet σ} {x y : σ}

/-! ## Partitions -/

namespace IsPartition

theorem nodup (h : IsPartition pieces) : pieces.Nodup := by
  refine h.disjoint.imp_of_mem ?_
  rintro p _ hp - hdisj rfl
  obtain ⟨x, hx⟩ := h.nonempty hp
  exact isDisjoint_iff.1 hdisj x hx hx

theorem mem_iff_together (h : IsPartition pieces) (hp : p ∈ pieces) (hx : x ∈ p) :
    y ∈ p ↔ Together pieces x y := by
  constructor
  · intro hy
    exact ⟨p, hp, hx, hy⟩
  · rintro ⟨q, hq, hxq, hy⟩
    rwa [eq_of_mem_of_mem h.disjoint hp hq hx hxq]

end IsPartition

/-! ## Atoms -/

/-- The pieces are a partition of the domain into canonical sets, as coarse as it can be without a
piece that is partly inside and partly outside of one of the sets. -/
structure IsAtoms (sets pieces : List (RangeSet σ)) : Prop extends IsPartition pieces where
  canonical : ∀ p ∈ pieces, Ascending p.bounds
  together_iff : ∀ x y, Together pieces x y ↔ ∀ set ∈ sets, x ∈ set ↔ y ∈ set

namespace IsAtoms

/-- The pieces are the classes of the symbols that no set tells apart. -/
theorem mem_iff (h : IsAtoms sets pieces) :
    p ∈ pieces ↔ ∃ x, ∀ y, y ∈ p ↔ ∀ set ∈ sets, x ∈ set ↔ y ∈ set := by
  constructor
  · intro hp
    obtain ⟨x, hx⟩ := h.nonempty hp
    exact ⟨x, fun y => (h.mem_iff_together hp hx).trans (h.together_iff x y)⟩
  · rintro ⟨x, hclass⟩
    obtain ⟨q, hq, hx⟩ := h.cover x
    have hpq : p = q := RangeSet.ext fun y => by
      rw [hclass, h.mem_iff_together hq hx, h.together_iff]
    exact hpq ▸ hq

/-- The same sets in another order, or some of them more often, give the same pieces. -/
theorem perm (h : IsAtoms sets pieces) (h' : IsAtoms sets' pieces')
    (hsets : ∀ set, set ∈ sets ↔ set ∈ sets') : pieces.Perm pieces' := by
  refine (List.perm_ext_iff_of_nodup h.nodup h'.nodup).2 fun p => ?_
  simp only [h.mem_iff, h'.mem_iff, hsets]

end IsAtoms

end RangeSet

/-! ## Requests -/

namespace Splitter

open RangeSet

theorem isAtoms_atoms (sets : List (RangeSet σ)) : IsAtoms sets (atoms sets) where
  toIsPartition := atoms_isPartition sets
  canonical p _ := p.ascending
  together_iff _ _ := together_atoms

/-- What a splitter can be asked to do. -/
inductive Request (σ : Type) [Symbol σ] where
  | split (set : RangeSet σ)
  | splitAll (sets : List (RangeSet σ))

namespace Request

def sets : Request σ → List (RangeSet σ)
  | split set => [set]
  | splitAll sets => sets

def serve (p : Splitter σ) : Request σ → Splitter σ
  | split set => p.split set
  | splitAll sets => p.splitAll sets

theorem serve_eq (p : Splitter σ) (r : Request σ) : serve p r = p.splitAll r.sets := by
  cases r <;> rfl

end Request

theorem splitAll_append (p : Splitter σ) (sets sets' : List (RangeSet σ)) :
    p.splitAll (sets ++ sets') = (p.splitAll sets).splitAll sets' := List.foldl_append

theorem foldl_serve (p : Splitter σ) (requests : List (Request σ)) :
    requests.foldl Request.serve p = p.splitAll (requests.flatMap Request.sets) := by
  induction requests generalizing p with
  | nil => rfl
  | cons r requests ih =>
    rw [List.foldl_cons, ih, Request.serve_eq, List.flatMap_cons, splitAll_append]

/-- A new splitter has the atoms of all sets that it was asked to split by. The same sets in other
requests lead to the same pieces, but for their order. -/
theorem requests_atoms (requests : List (Request σ)) :
    IsAtoms (requests.flatMap Request.sets) (requests.foldl Request.serve whole).pieces ∧
      ∀ others : List (Request σ),
        (∀ set, set ∈ requests.flatMap Request.sets ↔ set ∈ others.flatMap Request.sets) →
          (requests.foldl Request.serve whole).pieces.Perm
            (others.foldl Request.serve whole).pieces := by
  simp only [foldl_serve]
  exact ⟨isAtoms_atoms _, fun others hsets => (isAtoms_atoms _).perm (isAtoms_atoms _) hsets⟩

/-- Three sets of letters that overlap. -/
def letterRequests : List (Request Char) :=
  [.split (.range 'a' 'm'), .splitAll [.range 'g' 'z', .only 'e']]

theorem letterRequests_atoms :
    IsAtoms [.range 'a' 'm', .range 'g' 'z', .only 'e']
        (letterRequests.foldl Request.serve whole).pieces ∧
      (letterRequests.foldl Request.serve whole).pieces.Perm
        ([.splitAll [.only 'e', .range 'g' 'z', .only 'e'], .split (.range 'a' 'm')].foldl
          Request.serve whole).pieces := by
  obtain ⟨hatoms, hperm⟩ := requests_atoms letterRequests
  refine ⟨hatoms, hperm _ fun set => ?_⟩
  simp only [letterRequests, Request.sets, List.flatMap_cons, List.flatMap_nil, List.cons_append,
    List.nil_append, List.mem_cons, List.not_mem_nil]
  grind

end Splitter

end Munch
