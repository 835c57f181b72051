-- SUMMARY: Finite, totally ordered symbol domains, with characters and bytes as instances.

/-!
# Symbols

A symbol domain is finite and totally ordered. It is given by a bijection with
an initial segment of the natural numbers, the *rank* of a symbol: order,
neighbours and the first and last symbol are all read off the rank. Characters
are ranked by code point, without the gap that the surrogates leave.
-/

namespace Munch

/-- A nonempty finite domain whose symbols are numbered `0, …, card - 1` in ascending order. -/
class Symbol (σ : Type) where
  card : Nat
  rank : σ → Nat
  ofRank : (n : Nat) → n < card → σ
  card_pos : 0 < card
  rank_lt : ∀ x, rank x < card
  rank_ofRank : ∀ n h, rank (ofRank n h) = n
  ofRank_rank : ∀ x, ofRank (rank x) (rank_lt x) = x

namespace Symbol

variable {σ : Type} [Symbol σ]

theorem rank_inj {x y : σ} (h : rank x = rank y) : x = y := by
  rw [← ofRank_rank x, ← ofRank_rank y]
  simp only [h]

theorem eq_iff_rank_eq {x y : σ} : x = y ↔ rank x = rank y :=
  ⟨congrArg rank, rank_inj⟩

/-- The first symbol of the domain. -/
def least : σ := ofRank 0 card_pos

/-- The last symbol of the domain. -/
def greatest : σ := ofRank (card σ - 1) (Nat.sub_lt card_pos Nat.one_pos)

/-- The symbol that follows, if there is one. -/
def next? (x : σ) : Option σ :=
  if h : rank x + 1 < card σ then some (ofRank (rank x + 1) h) else none

/-- The symbol that precedes, if there is one. -/
def prev? (x : σ) : Option σ :=
  if rank x = 0 then none
  else some (ofRank (rank x - 1) (Nat.lt_of_le_of_lt (Nat.sub_le ..) (rank_lt x)))

@[simp] theorem rank_least : rank (least : σ) = 0 := rank_ofRank ..

@[simp] theorem rank_greatest : rank (greatest : σ) = card σ - 1 := rank_ofRank ..

theorem rank_next {x y : σ} (h : next? x = some y) : rank y = rank x + 1 := by
  unfold next? at h
  split at h
  · cases h; exact rank_ofRank ..
  · cases h

theorem next?_eq_none {x : σ} (h : next? x = none) : rank x + 1 = card σ := by
  unfold next? at h
  split at h
  · cases h
  · have := rank_lt x; omega

theorem rank_prev {x y : σ} (h : prev? x = some y) : rank y + 1 = rank x := by
  unfold prev? at h
  split at h
  · cases h
  · cases h; rw [rank_ofRank]; omega

theorem prev?_eq_none_iff {x : σ} : prev? x = none ↔ rank x = 0 := by
  unfold prev?; split <;> simp_all

end Symbol

/-! ## Characters -/

namespace Symbol

/-- The number of surrogate code points, which are not characters. -/
def surrogates : Nat := 0x800

/-- The number of scalar values. -/
def scalars : Nat := 0x110000 - surrogates

/-- A character's place among all characters: code points above the surrogates move down. -/
def charRank (c : Char) : Nat :=
  if c.toNat < 0xD800 then c.toNat else c.toNat - surrogates

/-- The character at a place among all characters. -/
def charOfRank (n : Nat) (h : n < scalars) : Char :=
  if hn : n < 0xD800 then Char.ofNatAux n (.inl hn)
  else Char.ofNatAux (n + surrogates) (.inr ⟨by simp only [surrogates] at *; omega, by
    simp only [scalars, surrogates] at *; omega⟩)

theorem charRank_of_toNat_lt {c : Char} (h : c.toNat < 0xD800) : charRank c = c.toNat := if_pos h

theorem charRank_of_le_toNat {c : Char} (h : 0xD800 ≤ c.toNat) :
    charRank c = c.toNat - surrogates :=
  if_neg (by omega)

theorem charRank_ofRank (n : Nat) (h : n < scalars) : charRank (charOfRank n h) = n := by
  unfold charOfRank
  by_cases hn : n < 0xD800
  · rw [dif_pos hn]
    exact charRank_of_toNat_lt hn
  · rw [dif_neg hn]
    have hle : 0xD800 ≤ n + surrogates := by omega
    exact Eq.trans (charRank_of_le_toNat (by exact hle)) (Nat.add_sub_cancel n surrogates)

theorem char_gap (c : Char) : c.toNat < 0xD800 ∨ (0xDFFF < c.toNat ∧ c.toNat < 0x110000) := c.valid

theorem charRank_lt (c : Char) : charRank c < scalars := by
  have := char_gap c
  unfold charRank scalars surrogates
  split <;> omega

theorem charOfRank_rank (c : Char) : charOfRank (charRank c) (charRank_lt c) = c := by
  apply Char.toNat_inj.1
  have hc := char_gap c
  unfold charOfRank
  by_cases h : c.toNat < 0xD800
  · rw [dif_pos (by rw [charRank_of_toNat_lt h]; exact h)]
    exact charRank_of_toNat_lt h
  · have hrank := charRank_of_le_toNat (Nat.le_of_not_lt h)
    rw [dif_neg (by rw [hrank]; unfold surrogates; omega)]
    show charRank c + surrogates = c.toNat
    rw [hrank]
    unfold surrogates
    omega

instance : Symbol Char where
  card := scalars
  rank := charRank
  ofRank := charOfRank
  card_pos := by decide
  rank_lt := charRank_lt
  rank_ofRank := charRank_ofRank
  ofRank_rank := charOfRank_rank

/-- Characters are ranked in the order of their code points. -/
theorem rank_le_rank {a b : Char} : rank a ≤ rank b ↔ a ≤ b := by
  have ha := char_gap a
  have hb := char_gap b
  have hle : a ≤ b ↔ a.toNat ≤ b.toNat := Iff.rfl
  show charRank a ≤ charRank b ↔ a ≤ b
  rw [hle, charRank, charRank, surrogates]
  split <;> split <;> omega

/-! ## Bytes -/

instance : Symbol UInt8 where
  card := 256
  rank := UInt8.toNat
  ofRank n _ := UInt8.ofNat n
  card_pos := by decide
  rank_lt := UInt8.toNat_lt
  rank_ofRank n h := by simp [UInt8.toNat_ofNat', Nat.mod_eq_of_lt h]
  ofRank_rank x := by simp

end Symbol

end Munch
