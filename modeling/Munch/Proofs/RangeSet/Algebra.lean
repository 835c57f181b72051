-- SUMMARY: Sets put together in any way hold the symbols that their expressions stand for.
import Munch.RangeSet.Lemmas
import Mathlib.Data.List.Basic
import Mathlib.Data.Set.Insert

/-! # The algebra of sets

An expression says how a set is put together, and which symbols it stands for in
terms of the order of the domain alone. The set that it evaluates to holds just
these symbols. Only bounds that do not ascend keep an expression from having a
value. -/

namespace Munch

open Munch.Symbol (rank)

/-! ## The order of the symbols -/

/-- Symbols are ranked in their order. -/
class Symbol.Ordered (σ : Type) [Symbol σ] [LE σ] [LT σ] : Prop where
  le_iff : ∀ {x y : σ}, x ≤ y ↔ rank x ≤ rank y
  lt_iff : ∀ {x y : σ}, x < y ↔ rank x < rank y

instance : Symbol.Ordered Char where
  le_iff := Symbol.rank_le_rank.symm
  lt_iff := by
    intro x y
    rw [← Char.not_le, ← Nat.not_le, Symbol.rank_le_rank]

instance : Symbol.Ordered UInt8 where
  le_iff := UInt8.le_iff_toNat_le
  lt_iff := UInt8.lt_iff_toNat_lt

namespace RangeSet

variable {σ : Type} {x : σ}

/-! ## Bounds -/

section

variable [Symbol σ] [LE σ] [LT σ] [Symbol.Ordered σ] {bounds : List σ} {a : RangeSet σ}

theorem ofBounds?_isSome_iff : (ofBounds? bounds).isSome ↔ bounds.Pairwise (· < ·) := by
  have hlt : bounds.Pairwise (· < ·) ↔ Ascending bounds := by
    simp only [Ascending, Symbol.Ordered.lt_iff]
  rw [hlt, ← ascends_iff, ofBounds?]
  by_cases h : ascends bounds = true <;> simp [h]

variable [DecidableLE σ]

theorem mem_iff_odd_le : x ∈ a ↔ a.bounds.countP (· ≤ x) % 2 = 1 := by
  simp only [mem_iff_odd, Symbol.Ordered.le_iff]

theorem mem_of_ofBounds? (h : ofBounds? bounds = some a) :
    x ∈ a ↔ bounds.countP (· ≤ x) % 2 = 1 := by
  rw [ofBounds?] at h
  split at h
  · cases h
    exact mem_iff_odd_le
  · cases h

end

/-! ## Simple sets -/

/-- A set that is named by its symbols. -/
inductive Simple (σ : Type) where
  | empty
  | full
  | only (x : σ)
  | allExcept (x : σ)
  | lessThan (x : σ)
  | lessEqual (x : σ)
  | greaterThan (x : σ)
  | greaterEqual (x : σ)
  | range (first last : σ)
  | anyOf (items : List σ)
  | anyExcept (items : List σ)

namespace Simple

def set [Symbol σ] : Simple σ → RangeSet σ
  | empty => .empty
  | full => .full
  | only x => .only x
  | allExcept x => .allExcept x
  | lessThan x => .lessThan x
  | lessEqual x => .lessEqual x
  | greaterThan x => .greaterThan x
  | greaterEqual x => .greaterEqual x
  | range first last => .range first last
  | anyOf items => .anyOf items
  | anyExcept items => .anyExcept items

def symbols [LE σ] [LT σ] : Simple σ → Set σ
  | empty => ∅
  | full => Set.univ
  | only x => {x}
  | allExcept x => {x}ᶜ
  | lessThan x => {y | y < x}
  | lessEqual x => {y | y ≤ x}
  | greaterThan x => {y | x < y}
  | greaterEqual x => {y | x ≤ y}
  | range first last => {y | first ≤ y ∧ y ≤ last}
  | anyOf items => {y | y ∈ items}
  | anyExcept items => {y | y ∉ items}

theorem mem_set [Symbol σ] [LE σ] [LT σ] [Symbol.Ordered σ] (s : Simple σ) :
    x ∈ s.set ↔ x ∈ s.symbols := by
  cases s <;> simp [set, symbols, Symbol.Ordered.le_iff, Symbol.Ordered.lt_iff]

example : (only '\ud7ff').set.bounds = ['\ud7ff', '\ue000'] := by decide

end Simple

/-! ## Operations on two sets -/

/-- An operation on two sets, with any function of two memberships among them. -/
inductive Operation where
  | union
  | inter
  | sdiff
  | symmetricDifference
  | dontCare
  | merge (f : Bool → Bool → Bool)

namespace Operation

def apply [Symbol σ] : Operation → RangeSet σ → RangeSet σ → RangeSet σ
  | union => (· ∪ ·)
  | inter => (· ∩ ·)
  | sdiff => (· \ ·)
  | symmetricDifference => RangeSet.symmetricDifference
  | dontCare => RangeSet.dontCare
  | merge f => RangeSet.merge f

open Classical in
/-- With ignored symbols `B`, a symbol counts as the last one up to it that is not ignored. -/
def symbols [LE σ] [LT σ] : Operation → Set σ → Set σ → Set σ
  | union, A, B => A ∪ B
  | inter, A, B => A ∩ B
  | sdiff, A, B => A \ B
  | symmetricDifference, A, B => {x | ¬ (x ∈ A ↔ x ∈ B)}
  | dontCare, A, B => {x | ∃ y ≤ x, y ∈ A ∧ y ∉ B ∧ ∀ z, y < z → z ≤ x → z ∈ B}
  | merge f, A, B => {x | f (decide (x ∈ A)) (decide (x ∈ B)) = true}

theorem mem_apply [Symbol σ] [LE σ] [LT σ] [Symbol.Ordered σ] (op : Operation) {a b : RangeSet σ}
    {A B : Set σ} (ha : ∀ x, x ∈ a ↔ x ∈ A) (hb : ∀ x, x ∈ b ↔ x ∈ B) :
    x ∈ op.apply a b ↔ x ∈ op.symbols A B := by
  cases op with
  | dontCare =>
    simp only [apply, symbols, mem_dontCare, ha, hb, ← Symbol.Ordered.le_iff,
      ← Symbol.Ordered.lt_iff, Set.mem_ofPred_eq]
  | merge f =>
    classical
    have hx : decide (x ∈ a) = decide (x ∈ A) := decide_eq_decide.2 (ha x)
    have hy : decide (x ∈ b) = decide (x ∈ B) := decide_eq_decide.2 (hb x)
    simp only [apply, symbols, mem_merge, Set.mem_ofPred_eq, hx, hy]
  | _ => simp [apply, symbols, ha, hb]

end Operation

/-! ## Expressions -/

/-- How a set is put together. -/
inductive Expr (σ : Type) where
  | simple (s : Simple σ)
  | ofBounds (bounds : List σ)
  | complement (a : Expr σ)
  | binary (op : Operation) (a b : Expr σ)
  | unionAll (sets : List (Expr σ))
  | intersectionAll (sets : List (Expr σ))

namespace Expr

section

variable [Symbol σ]

mutual

/-- The set that the expression makes, if all bounds in it ascend. -/
def eval? : Expr σ → Option (RangeSet σ)
  | simple s => some s.set
  | ofBounds bounds => ofBounds? bounds
  | complement a => RangeSet.complement <$> a.eval?
  | binary op a b => do return op.apply (← a.eval?) (← b.eval?)
  | unionAll sets => RangeSet.unionAll <$> evalEach? sets
  | intersectionAll sets => RangeSet.intersectionAll <$> evalEach? sets

def evalEach? : List (Expr σ) → Option (List (RangeSet σ))
  | [] => some []
  | a :: rest => do return (← a.eval?) :: (← evalEach? rest)

end

end

mutual

/-- The lists of bounds in the expression. -/
def bounds : Expr σ → List (List σ)
  | simple _ => []
  | ofBounds bounds => [bounds]
  | complement a => a.bounds
  | binary _ a b => a.bounds ++ b.bounds
  | unionAll sets => boundsOfEach sets
  | intersectionAll sets => boundsOfEach sets

def boundsOfEach : List (Expr σ) → List (List σ)
  | [] => []
  | a :: rest => a.bounds ++ boundsOfEach rest

end

section

variable [LE σ] [LT σ] [DecidableLE σ]

mutual

/-- The symbols that the expression stands for. -/
def symbols : Expr σ → Set σ
  | simple s => s.symbols
  | ofBounds bounds => {x | bounds.countP (· ≤ x) % 2 = 1}
  | complement a => a.symbolsᶜ
  | binary op a b => op.symbols a.symbols b.symbols
  | unionAll sets => {x | ∃ A ∈ symbolsOfEach sets, x ∈ A}
  | intersectionAll sets => {x | ∀ A ∈ symbolsOfEach sets, x ∈ A}

def symbolsOfEach : List (Expr σ) → List (Set σ)
  | [] => []
  | a :: rest => a.symbols :: symbolsOfEach rest

end

end

mutual

/-- An expression has a value if and only if all bounds in it ascend. -/
theorem eval?_isSome_iff [Symbol σ] [LE σ] [LT σ] [Symbol.Ordered σ] :
    (e : Expr σ) → (e.eval?.isSome ↔ ∀ bounds ∈ e.bounds, bounds.Pairwise (· < ·))
  | simple s => by simp [eval?, bounds]
  | ofBounds bounds => by simp [eval?, Expr.bounds, ofBounds?_isSome_iff]
  | complement a => by
    rw [eval?, bounds, ← eval?_isSome_iff a]
    simp
  | binary op a b => by
    rw [eval?, bounds, List.forall_mem_append, ← eval?_isSome_iff a, ← eval?_isSome_iff b]
    cases a.eval? <;> cases b.eval? <;> simp
  | unionAll sets => by
    rw [eval?, bounds, ← evalEach?_isSome_iff sets]
    simp
  | intersectionAll sets => by
    rw [eval?, bounds, ← evalEach?_isSome_iff sets]
    simp

theorem evalEach?_isSome_iff [Symbol σ] [LE σ] [LT σ] [Symbol.Ordered σ] :
    (sets : List (Expr σ)) →
      ((evalEach? sets).isSome ↔ ∀ bounds ∈ boundsOfEach sets, bounds.Pairwise (· < ·))
  | [] => by simp [evalEach?, boundsOfEach]
  | a :: rest => by
    rw [evalEach?, boundsOfEach, List.forall_mem_append, ← eval?_isSome_iff a,
      ← evalEach?_isSome_iff rest]
    cases a.eval? <;> cases evalEach? rest <;> simp

end

mutual

/-- The value holds the symbols that the expression stands for. -/
theorem mem_of_eval? [Symbol σ] [LE σ] [LT σ] [DecidableLE σ] [Symbol.Ordered σ]
    {x : σ} :
    (e : Expr σ) → {a : RangeSet σ} → e.eval? = some a → (x ∈ a ↔ x ∈ e.symbols)
  | simple s, _, h => by
    cases h
    exact s.mem_set
  | ofBounds bounds, _, h => mem_of_ofBounds? h
  | complement e, _, h => by
    obtain ⟨a, ha, rfl⟩ := Option.map_eq_some_iff.1 h
    rw [mem_complement, mem_of_eval? e ha, symbols]
    rfl
  | binary op e e', _, h => by
    obtain ⟨a, ha, h⟩ := Option.bind_eq_some_iff.1 h
    obtain ⟨b, hb, h⟩ := Option.bind_eq_some_iff.1 h
    cases h
    exact op.mem_apply (fun x => mem_of_eval? e ha) fun x => mem_of_eval? e' hb
  | unionAll sets, _, h => by
    obtain ⟨as, has, rfl⟩ := Option.map_eq_some_iff.1 h
    rw [mem_unionAll]
    exact (mem_of_evalEach? sets has).1
  | intersectionAll sets, _, h => by
    obtain ⟨as, has, rfl⟩ := Option.map_eq_some_iff.1 h
    rw [mem_intersectionAll]
    exact (mem_of_evalEach? sets has).2

theorem mem_of_evalEach? [Symbol σ] [LE σ] [LT σ] [DecidableLE σ] [Symbol.Ordered σ]
    {x : σ} :
    (sets : List (Expr σ)) → {as : List (RangeSet σ)} → evalEach? sets = some as →
      ((∃ a ∈ as, x ∈ a) ↔ ∃ A ∈ symbolsOfEach sets, x ∈ A) ∧
        ((∀ a ∈ as, x ∈ a) ↔ ∀ A ∈ symbolsOfEach sets, x ∈ A)
  | [], _, h => by
    cases h
    simp [symbolsOfEach]
  | e :: rest, _, h => by
    obtain ⟨a, ha, h⟩ := Option.bind_eq_some_iff.1 h
    obtain ⟨as, has, h⟩ := Option.bind_eq_some_iff.1 h
    cases h
    have hset := mem_of_eval? (x := x) e ha
    obtain ⟨hany, hall⟩ := mem_of_evalEach? (x := x) rest has
    rw [symbolsOfEach, List.exists_mem_cons_iff, List.exists_mem_cons_iff, List.forall_mem_cons,
      List.forall_mem_cons, hset, hany, hall]
    exact ⟨Iff.rfl, Iff.rfl⟩

end

/-! ## Exactness -/

variable [Symbol σ] [LE σ] [LT σ] [DecidableLE σ] [Symbol.Ordered σ]

/-- Only bounds that do not ascend leave the expression without a value. The bounds of the value
ascend, it holds the symbols that the expression stands for, and a symbol is among them if an odd
number of bounds lies below it or on it. -/
structure Exact (e : Expr σ) : Prop where
  isSome_iff : e.eval?.isSome ↔ ∀ bounds ∈ e.bounds, bounds.Pairwise (· < ·)
  ascending : ∀ a ∈ e.eval?, a.bounds.Pairwise (· < ·)
  mem_iff : ∀ a ∈ e.eval?, ∀ x, x ∈ a ↔ x ∈ e.symbols
  mem_iff_odd : ∀ a ∈ e.eval?, ∀ x, x ∈ a ↔ a.bounds.countP (· ≤ x) % 2 = 1

theorem exact (e : Expr σ) : e.Exact where
  isSome_iff := eval?_isSome_iff e
  ascending a _ := a.ascending.imp Symbol.Ordered.lt_iff.2
  mem_iff _ ha _ := mem_of_eval? e ha
  mem_iff_odd _ _ _ := mem_iff_odd_le

/-- Sets of characters and sets of bytes are exact, however they are put together. -/
theorem exact_char_byte : (∀ e : Expr Char, e.Exact) ∧ ∀ e : Expr UInt8, e.Exact :=
  ⟨fun e => e.exact, fun e => e.exact⟩

end Expr

end RangeSet

end Munch
