-- SUMMARY: Sets of symbols as ascending lists of bounds, with the boolean operations on them.
import Munch.Symbol

/-!
# Sets of symbols

A set is the ascending list of its *bounds*, the points at which membership
flips: before the first bound nothing is in the set, and every bound turns
membership over from that symbol on. `['a', 'g', 'x']` holds `a` to `f`, and
`x` with everything above it. The bounds ascend strictly, so a set has exactly
one such list and equality of lists is equality of sets.

Binary operations sweep both lists together and keep the points at which the
combined state flips.
-/

namespace Munch

open Munch.Symbol (rank least greatest next? prev?)

/-- Symbols in strictly ascending order. -/
abbrev Ascending {σ : Type} [Symbol σ] (bounds : List σ) : Prop :=
  bounds.Pairwise (rank · < rank ·)

/-- A set of symbols, given by the points at which membership flips. -/
structure RangeSet (σ : Type) [Symbol σ] where
  bounds : List σ
  ascending : Ascending bounds
deriving DecidableEq

namespace RangeSet

variable {σ : Type} [Symbol σ]

/-! ## Membership -/

/-- The state at `x`, when it is `s` before the first bound and every bound up to `x` flips it. -/
def stateAt (s : Bool) : List σ → σ → Bool
  | [], _ => s
  | b :: bs, x => if rank b ≤ rank x then stateAt (!s) bs x else s

def contains (a : RangeSet σ) (x : σ) : Bool := stateAt false a.bounds x

instance : Membership σ (RangeSet σ) := ⟨fun a x => a.contains x = true⟩

instance (x : σ) (a : RangeSet σ) : Decidable (x ∈ a) := inferInstanceAs (Decidable (_ = true))

/-! ## Simple sets -/

def empty : RangeSet σ := ⟨[], .nil⟩

instance : EmptyCollection (RangeSet σ) := ⟨empty⟩

instance : Inhabited (RangeSet σ) := ⟨empty⟩

def full : RangeSet σ := ⟨[least], List.pairwise_singleton ..⟩

/-- The symbols from `x` on. -/
def greaterEqual (x : σ) : RangeSet σ := ⟨[x], List.pairwise_singleton ..⟩

/-- The symbols after `x`. -/
def greaterThan (x : σ) : RangeSet σ :=
  match next? x with
  | some y => greaterEqual y
  | none => empty

/-- The symbols before `x`. -/
def lessThan (x : σ) : RangeSet σ :=
  if h : rank x = 0 then empty
  else ⟨[least, x], by simp only [List.pairwise_pair, Symbol.rank_least]; omega⟩

/-- The symbols up to `x`. -/
def lessEqual (x : σ) : RangeSet σ :=
  match next? x with
  | some y => lessThan y
  | none => full

def only (x : σ) : RangeSet σ :=
  match h : next? x with
  | some y => ⟨[x, y], by simp only [List.pairwise_pair, Symbol.rank_next h]; omega⟩
  | none => greaterEqual x

/-! ## Bounds from outside -/

/-- Whether each symbol lies below the one after it. -/
def ascends : List σ → Bool
  | x :: y :: rest => decide (rank x < rank y) && ascends (y :: rest)
  | _ => true

theorem ascends_iff {bounds : List σ} : ascends bounds = true ↔ Ascending bounds := by
  induction bounds with
  | nil => simp [ascends]
  | cons x rest ih =>
    cases rest with
    | nil => simp [ascends]
    | cons y rest =>
      simp only [ascends, Bool.and_eq_true, decide_eq_true_eq, ih, Ascending]
      constructor
      · rintro ⟨hxy, h⟩
        refine List.pairwise_cons.2 ⟨fun z hz => ?_, h⟩
        rcases List.mem_cons.1 hz with rfl | hz
        · exact hxy
        · exact Nat.lt_trans hxy (List.rel_of_pairwise_cons h hz)
      · exact fun h => ⟨List.rel_of_pairwise_cons h List.mem_cons_self, h.of_cons⟩

/-- The set with the given bounds, which have to ascend strictly. -/
def ofBounds? (bounds : List σ) : Option (RangeSet σ) :=
  if h : ascends bounds then some ⟨bounds, ascends_iff.1 h⟩ else none

/-! ## Operations -/

theorem ascending_least_cons {b : σ} {bs : List σ} (h : Ascending (b :: bs)) (hb : rank b ≠ 0) :
    Ascending (least :: b :: bs) := by
  refine List.pairwise_cons.2 ⟨fun z hz => ?_, h⟩
  rw [Symbol.rank_least]
  rcases List.mem_cons.1 hz with rfl | hz
  · omega
  · have := List.rel_of_pairwise_cons h hz; omega

/-- The symbols outside: the bound at the least symbol goes if it was there, and comes if not. -/
def complement : RangeSet σ → RangeSet σ
  | ⟨[], _⟩ => full
  | ⟨b :: bs, h⟩ =>
    if hb : rank b = 0 then ⟨bs, h.of_cons⟩ else ⟨least :: b :: bs, ascending_least_cons h hb⟩

/-- Every point of either list in ascending order, with the states of both sides from there on. -/
def sweep (l r : Bool) : List σ → List σ → List (σ × Bool × Bool)
  | [], [] => []
  | a :: as, [] => (a, !l, r) :: sweep (!l) r as []
  | [], b :: bs => (b, l, !r) :: sweep l (!r) [] bs
  | a :: as, b :: bs =>
    if rank a < rank b then (a, !l, r) :: sweep (!l) r as (b :: bs)
    else if rank b < rank a then (b, l, !r) :: sweep l (!r) (a :: as) bs
    else (a, !l, !r) :: sweep (!l) (!r) as bs
termination_by as bs => as.length + bs.length

/-- The points at which a state that starts as `s` changes. -/
def flips (s : Bool) : List (σ × Bool) → List σ
  | [] => []
  | (x, v) :: rest => if v = s then flips s rest else x :: flips v rest

omit [Symbol σ] in
theorem flips_sublist (s : Bool) (points : List (σ × Bool)) :
    (flips s points).Sublist (points.map Prod.fst) := by
  induction points generalizing s with
  | nil => exact .slnil
  | cons p rest ih =>
    simp only [flips, List.map_cons]
    split
    · exact (ih s).cons _
    · exact (ih p.2).cons_cons _

theorem mem_sweep {l r : Bool} {as bs : List σ} {p : σ × Bool × Bool} (h : p ∈ sweep l r as bs) :
    p.1 ∈ as ∨ p.1 ∈ bs := by
  fun_induction sweep l r as bs <;> simp only [List.mem_cons, List.not_mem_nil] at * <;> grind

theorem sweep_ascending {as bs : List σ} (l r : Bool) (ha : Ascending as) (hb : Ascending bs) :
    (sweep l r as bs).Pairwise (fun p q => rank p.1 < rank q.1) := by
  fun_induction sweep l r as bs with
  | case1 => exact .nil
  | case2 l r a as ih =>
    refine List.pairwise_cons.2 ⟨fun p hp => ?_, ih ha.of_cons hb⟩
    rcases mem_sweep hp with h | h
    · exact List.rel_of_pairwise_cons ha h
    · cases h
  | case3 l r b bs ih =>
    refine List.pairwise_cons.2 ⟨fun p hp => ?_, ih ha hb.of_cons⟩
    rcases mem_sweep hp with h | h
    · cases h
    · exact List.rel_of_pairwise_cons hb h
  | case4 l r a as b bs hlt ih =>
    refine List.pairwise_cons.2 ⟨fun p hp => ?_, ih ha.of_cons hb⟩
    rcases mem_sweep hp with h | h
    · exact List.rel_of_pairwise_cons ha h
    · rcases List.mem_cons.1 h with h | h
      · rw [h]; exact hlt
      · exact Nat.lt_trans hlt (List.rel_of_pairwise_cons hb h)
  | case5 l r a as b bs _ hlt ih =>
    refine List.pairwise_cons.2 ⟨fun p hp => ?_, ih ha hb.of_cons⟩
    rcases mem_sweep hp with h | h
    · rcases List.mem_cons.1 h with h | h
      · rw [h]; exact hlt
      · exact Nat.lt_trans hlt (List.rel_of_pairwise_cons ha h)
    · exact List.rel_of_pairwise_cons hb h
  | case6 l r a as b bs hab hba ih =>
    have heq : rank a = rank b := by omega
    refine List.pairwise_cons.2 ⟨fun p hp => ?_, ih ha.of_cons hb.of_cons⟩
    rcases mem_sweep hp with h | h
    · exact List.rel_of_pairwise_cons ha h
    · rw [heq]; exact List.rel_of_pairwise_cons hb h

theorem flips_ascending (s : Bool) {points : List (σ × Bool)}
    (h : points.Pairwise (fun p q => rank p.1 < rank q.1)) : Ascending (flips s points) :=
  (List.pairwise_map.2 h : Ascending (points.map Prod.fst)).sublist (flips_sublist s points)

/-- The points at which `f` of both memberships flips, taken to be false before the first. -/
def combine (f : Bool → Bool → Bool) (a b : RangeSet σ) : RangeSet σ where
  bounds := flips false ((sweep false false a.bounds b.bounds).map fun p => (p.1, f p.2.1 p.2.2))
  ascending := flips_ascending _ (List.pairwise_map.2 (sweep_ascending _ _ a.ascending b.ascending))

/-- The symbols at which `f` of both memberships is true. An `f` that is true outside both sets
has the same bounds as its negation, the least symbol apart. -/
def merge (f : Bool → Bool → Bool) (a b : RangeSet σ) : RangeSet σ :=
  if f false false then (combine (fun p q => !f p q) a b).complement else combine f a b

instance : Union (RangeSet σ) := ⟨merge (· || ·)⟩

instance : Inter (RangeSet σ) := ⟨merge (· && ·)⟩

instance : SDiff (RangeSet σ) := ⟨merge fun p q => p && !q⟩

def symmetricDifference (a b : RangeSet σ) : RangeSet σ := merge (· != ·) a b

/-- A set that agrees with `a` outside `ignored` and flips nowhere inside it: an ignored symbol has
the state of the last symbol before it that is not ignored. -/
def dontCare (a ignored : RangeSet σ) : RangeSet σ where
  bounds := flips false <|
    ((sweep false false a.bounds ignored.bounds).filter (!·.2.2)).map fun p => (p.1, p.2.1)
  ascending := flips_ascending _ <|
    List.pairwise_map.2 ((sweep_ascending _ _ a.ascending ignored.ascending).sublist List.filter_sublist)

def allExcept (x : σ) : RangeSet σ := (only x).complement

/-- The symbols from `s` up to `e`, none if `e` comes before `s`. -/
def range (s e : σ) : RangeSet σ := greaterEqual s ∩ lessEqual e

def unionAll (sets : List (RangeSet σ)) : RangeSet σ := sets.foldl (· ∪ ·) empty

def intersectionAll (sets : List (RangeSet σ)) : RangeSet σ := sets.foldl (· ∩ ·) full

def anyOf (items : List σ) : RangeSet σ := unionAll (items.map only)

def anyExcept (items : List σ) : RangeSet σ := intersectionAll (items.map allExcept)

/-! ## Questions -/

def isEmpty (a : RangeSet σ) : Bool := a.bounds.isEmpty

def isFull (a : RangeSet σ) : Bool :=
  match a.bounds with
  | [b] => rank b == 0
  | _ => false

def isDisjoint (a b : RangeSet σ) : Bool := (a ∩ b).isEmpty

/-- Bounds in pairs: the first symbol inside, and the last one before the flip back. -/
def pairs : List σ → List (σ × σ)
  | [] => []
  | [s] => [(s, greatest)]
  | s :: e :: rest => ((prev? e).map (s, ·)).toList ++ pairs rest

/-- The longest runs of symbols inside, each with its first and last symbol, in ascending order. -/
def ranges (a : RangeSet σ) : List (σ × σ) := pairs a.bounds

/-- The order of the lists of bounds, symbol by symbol, a shorter list before its extensions. -/
instance : Ord (RangeSet σ) :=
  ⟨fun a b => List.compareLex (fun x y => compare (rank x) (rank y)) a.bounds b.bounds⟩

end RangeSet

end Munch
