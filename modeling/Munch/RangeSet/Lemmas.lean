-- SUMMARY: Membership in every set that the operations make.
import Munch.RangeSet.Basic

/-!
# Membership

What each operation does to membership. The operations on two sets go through
`valueAt`, the value that a list of points gives to a symbol: a sweep gives it
the memberships in both sets, and dropping the points without a flip changes
the value nowhere.
-/

namespace Munch.RangeSet

open Munch.Symbol (rank least greatest next? prev?)

variable {σ : Type} [Symbol σ]

/-! ## Values between points -/

/-- The value of the last point up to `x`, or `v` before the first. -/
def valueAt {β : Type} (v : β) : List (σ × β) → σ → β
  | [], _ => v
  | (p, w) :: rest, x => if rank p ≤ rank x then valueAt w rest x else v

theorem stateAt_cons (s : Bool) (b : σ) (bs : List σ) (x : σ) :
    stateAt s (b :: bs) x = if rank b ≤ rank x then stateAt (!s) bs x else s :=
  rfl

theorem stateAt_not (s : Bool) (bounds : List σ) (x : σ) :
    stateAt (!s) bounds x = !stateAt s bounds x := by
  induction bounds generalizing s with
  | nil => rfl
  | cons b bs ih =>
    simp only [stateAt]
    split
    · exact ih (!s)
    · rfl

theorem stateAt_of_lt {s : Bool} {bounds : List σ} {x : σ} (h : ∀ b ∈ bounds, rank x < rank b) :
    stateAt s bounds x = s := by
  cases bounds with
  | nil => rfl
  | cons b bs => exact if_neg (Nat.not_le.2 (h b List.mem_cons_self))

theorem valueAt_map {β γ : Type} (f : β → γ) (v : β) (points : List (σ × β)) (x : σ) :
    valueAt (f v) (points.map fun p => (p.1, f p.2)) x = f (valueAt v points x) := by
  induction points generalizing v with
  | nil => rfl
  | cons p rest ih =>
    simp only [List.map_cons, valueAt]
    split
    · exact ih p.2
    · rfl

theorem stateAt_flips (s : Bool) {points : List (σ × Bool)} (x : σ)
    (h : points.Pairwise (fun p q => rank p.1 < rank q.1)) :
    stateAt s (flips s points) x = valueAt s points x := by
  induction points generalizing s with
  | nil => rfl
  | cons p rest ih =>
    have hp := List.pairwise_cons.1 h
    simp only [flips, valueAt]
    by_cases hle : rank p.1 ≤ rank x
    · rw [if_pos hle]
      split
      case isTrue hv => rw [hv]; exact ih s hp.2
      case isFalse hv =>
        have hnot : (!s) = p.2 := by cases s <;> cases hp2 : p.2 <;> simp_all
        simp only [stateAt, if_pos hle, hnot]
        exact ih p.2 hp.2
    · rw [if_neg hle]
      split
      · refine stateAt_of_lt fun b hb => ?_
        obtain ⟨q, hq, rfl⟩ := List.mem_map.1 ((flips_sublist s rest).subset hb)
        exact Nat.lt_trans (Nat.lt_of_not_le hle) (hp.1 q hq)
      · exact if_neg hle

theorem valueAt_sweep (l r : Bool) {as bs : List σ} (x : σ)
    (ha : Ascending as) (hb : Ascending bs) :
    valueAt (l, r) (sweep l r as bs) x = (stateAt l as x, stateAt r bs x) := by
  fun_induction sweep l r as bs with
  | case1 => rfl
  | case2 l r a as ih =>
    simp only [valueAt, stateAt]
    split
    · exact ih ha.of_cons hb
    · rfl
  | case3 l r b bs ih =>
    simp only [valueAt, stateAt]
    split
    · exact ih ha hb.of_cons
    · rfl
  | case4 l r a as b bs hlt ih =>
    simp only [valueAt]
    split
    case isTrue hle =>
      rw [ih ha.of_cons hb, stateAt_cons l, if_pos hle]
    case isFalse hle =>
      rw [stateAt_cons l, if_neg hle, stateAt_cons r, if_neg (by omega)]
  | case5 l r a as b bs _ hlt ih =>
    simp only [valueAt]
    split
    case isTrue hle =>
      rw [ih ha hb.of_cons, stateAt_cons r, if_pos hle]
    case isFalse hle =>
      rw [stateAt_cons l, if_neg (by omega), stateAt_cons r, if_neg hle]
  | case6 l r a as b bs hab hba ih =>
    simp only [valueAt]
    split
    case isTrue hle =>
      rw [ih ha.of_cons hb.of_cons, stateAt_cons l, if_pos hle, stateAt_cons r,
        if_pos (by omega)]
    case isFalse hle =>
      rw [stateAt_cons l, if_neg hle, stateAt_cons r, if_neg (by omega)]

theorem valueAt_of_lt {β : Type} {v : β} {points : List (σ × β)} {x : σ}
    (h : ∀ p ∈ points, rank x < rank p.1) : valueAt v points x = v := by
  cases points with
  | nil => rfl
  | cons p rest => exact if_neg (Nat.not_le.2 (h p List.mem_cons_self))

theorem valueAt_of_mem {β : Type} {v : β} {points : List (σ × β)} {p : σ × β}
    (h : points.Pairwise (fun p q => rank p.1 < rank q.1)) (hp : p ∈ points) :
    valueAt v points p.1 = p.2 := by
  induction points generalizing v with
  | nil => cases hp
  | cons q rest ih =>
    obtain ⟨hq, hrest⟩ := List.pairwise_cons.1 h
    rw [valueAt]
    rcases List.mem_cons.1 hp with rfl | hp
    · rw [if_pos (Nat.le_refl _)]
      exact valueAt_of_lt hq
    · rw [if_pos (Nat.le_of_lt (hq p hp))]
      exact ih hrest hp

/-- The value is the same at two symbols if no point lies between them. -/
theorem valueAt_congr {β : Type} (v : β) {points : List (σ × β)} {x y : σ}
    (h : ∀ p ∈ points, rank p.1 ≤ rank x ↔ rank p.1 ≤ rank y) :
    valueAt v points x = valueAt v points y := by
  induction points generalizing v with
  | nil => rfl
  | cons p rest ih =>
    obtain ⟨hp, hrest⟩ := List.forall_mem_cons.1 h
    simp only [valueAt, hp]
    split
    · exact ih p.2 hrest
    · rfl

/-- Points whose values are dropped do not matter where the value is kept. -/
theorem valueAt_filter {β : Type} (keep : β → Bool) {u v : β} {points : List (σ × β)} {x : σ}
    (h : points.Pairwise (fun p q => rank p.1 < rank q.1)) (hstart : keep v = true → u = v)
    (hx : keep (valueAt v points x) = true) :
    valueAt u (points.filter fun p => keep p.2) x = valueAt v points x := by
  induction points generalizing u v with
  | nil => exact hstart hx
  | cons p rest ih =>
    obtain ⟨hp, hrest⟩ := List.pairwise_cons.1 h
    by_cases hle : rank p.1 ≤ rank x
    · rw [valueAt, if_pos hle] at hx ⊢
      by_cases hkeep : keep p.2 = true
      · rw [List.filter_cons_of_pos (by exact hkeep), valueAt, if_pos hle]
        exact ih hrest (fun _ => rfl) hx
      · rw [List.filter_cons_of_neg (by exact hkeep)]
        exact ih hrest (fun h => absurd h hkeep) hx
    · rw [valueAt, if_neg hle] at hx ⊢
      rw [← hstart hx]
      refine valueAt_of_lt fun q hq => ?_
      rcases List.mem_cons.1 (List.mem_filter.1 hq).1 with rfl | hq
      · omega
      · have := hp q hq
        omega

/-! ## Operations -/

theorem mem_iff {a : RangeSet σ} {x : σ} : x ∈ a ↔ a.contains x = true := Iff.rfl

theorem contains_complement (a : RangeSet σ) (x : σ) :
    a.complement.contains x = !a.contains x := by
  obtain ⟨bounds, h⟩ := a
  cases bounds with
  | nil =>
    show (if rank least ≤ rank x then !false else false) = !false
    rw [if_pos (by rw [Symbol.rank_least]; omega)]
  | cons b bs =>
    by_cases hb : rank b = 0
    · have hle : rank b ≤ rank x := by omega
      simp only [complement, dif_pos hb, contains, stateAt, if_pos hle, stateAt_not, Bool.not_not]
    · have hle : rank (least : σ) ≤ rank x := by rw [Symbol.rank_least]; omega
      simp only [complement, dif_neg hb, contains]
      rw [stateAt_cons false least, if_pos hle, stateAt_not]

theorem contains_combine {f : Bool → Bool → Bool} (hf : f false false = false)
    (a b : RangeSet σ) (x : σ) :
    (combine f a b).contains x = f (a.contains x) (b.contains x) := by
  have hmap := valueAt_map (fun s : Bool × Bool => f s.1 s.2) (false, false)
    (sweep false false a.bounds b.bounds) x
  rw [valueAt_sweep false false x a.ascending b.ascending] at hmap
  refine Eq.trans (stateAt_flips false x ?_) (Eq.trans ?_ hmap)
  · exact List.pairwise_map.2 (sweep_ascending _ _ a.ascending b.ascending)
  · show valueAt false _ x = valueAt (f false false) _ x
    rw [hf]

theorem contains_merge (f : Bool → Bool → Bool) (a b : RangeSet σ) (x : σ) :
    (merge f a b).contains x = f (a.contains x) (b.contains x) := by
  unfold merge
  split
  case isTrue hf =>
    rw [contains_complement, contains_combine (by rw [hf]; rfl), Bool.not_not]
  case isFalse hf =>
    exact contains_combine (Bool.eq_false_iff.2 hf) a b x

theorem contains_union (a b : RangeSet σ) (x : σ) :
    (a ∪ b).contains x = (a.contains x || b.contains x) :=
  contains_merge ..

theorem contains_inter (a b : RangeSet σ) (x : σ) :
    (a ∩ b).contains x = (a.contains x && b.contains x) :=
  contains_merge ..

theorem contains_sdiff (a b : RangeSet σ) (x : σ) :
    (a \ b).contains x = (a.contains x && !b.contains x) :=
  contains_merge ..

@[simp] theorem mem_complement {a : RangeSet σ} {x : σ} : x ∈ a.complement ↔ ¬ x ∈ a := by
  simp [mem_iff, contains_complement]

@[simp] theorem mem_merge {f : Bool → Bool → Bool} {a b : RangeSet σ} {x : σ} :
    x ∈ merge f a b ↔ f (decide (x ∈ a)) (decide (x ∈ b)) = true := by
  simp [mem_iff, contains_merge]

@[simp] theorem mem_union {a b : RangeSet σ} {x : σ} : x ∈ a ∪ b ↔ x ∈ a ∨ x ∈ b := by
  simp [mem_iff, contains_union]

@[simp] theorem mem_inter {a b : RangeSet σ} {x : σ} : x ∈ a ∩ b ↔ x ∈ a ∧ x ∈ b := by
  simp [mem_iff, contains_inter]

@[simp] theorem mem_sdiff {a b : RangeSet σ} {x : σ} : x ∈ a \ b ↔ x ∈ a ∧ ¬ x ∈ b := by
  simp [mem_iff, contains_sdiff]

/-! ## Equality -/

theorem stateAt_head {s : Bool} {b : σ} {bs : List σ} (h : Ascending (b :: bs)) :
    stateAt s (b :: bs) b = !s := by
  rw [stateAt_cons, if_pos (Nat.le_refl _)]
  exact stateAt_of_lt (List.pairwise_cons.1 h).1

theorem eq_of_stateAt_eq {s : Bool} {as bs : List σ} (ha : Ascending as) (hb : Ascending bs)
    (h : ∀ x, stateAt s as x = stateAt s bs x) : as = bs := by
  induction as generalizing s bs with
  | nil =>
    cases bs with
    | nil => rfl
    | cons b bs => exact absurd ((h b).trans (stateAt_head hb)) (Bool.eq_not_self s).1
  | cons a as ih =>
    cases bs with
    | nil => exact absurd ((stateAt_head ha).symm.trans (h a)) (Bool.not_eq_self s).1
    | cons b bs =>
      have hfirst := (stateAt_head ha).symm.trans (h a)
      have hfirst' := (h b).trans (stateAt_head hb)
      rcases Nat.lt_trichotomy (rank a) (rank b) with hlt | heq | hlt
      · rw [stateAt_cons, if_neg (Nat.not_le.2 hlt)] at hfirst
        exact absurd hfirst (Bool.not_eq_self s).1
      · obtain rfl := Symbol.rank_inj heq
        obtain ⟨hahead, hatail⟩ := List.pairwise_cons.1 ha
        obtain ⟨hbhead, hbtail⟩ := List.pairwise_cons.1 hb
        congr 1
        refine ih hatail hbtail (s := !s) fun x => ?_
        by_cases hle : rank a ≤ rank x
        · have hx := h x
          rwa [stateAt_cons, stateAt_cons, if_pos hle, if_pos hle] at hx
        · have hlt := Nat.lt_of_not_le hle
          rw [stateAt_of_lt fun c hc => Nat.lt_trans hlt (hahead c hc),
            stateAt_of_lt fun c hc => Nat.lt_trans hlt (hbhead c hc)]
      · rw [stateAt_cons, if_neg (Nat.not_le.2 hlt)] at hfirst'
        exact absurd hfirst' (Bool.eq_not_self s).1

/-- A set has only one list of bounds. -/
theorem ext {a b : RangeSet σ} (h : ∀ x, x ∈ a ↔ x ∈ b) : a = b := by
  obtain ⟨as, ha⟩ := a
  obtain ⟨bs, hb⟩ := b
  congr 1
  exact eq_of_stateAt_eq ha hb fun x => Bool.eq_iff_iff.2 (h x)

theorem union_assoc (a b c : RangeSet σ) : a ∪ b ∪ c = a ∪ (b ∪ c) :=
  ext fun x => by simp only [mem_union, or_assoc]

theorem union_right_comm (a b c : RangeSet σ) : a ∪ b ∪ c = a ∪ c ∪ b :=
  ext fun x => by simp only [mem_union, or_right_comm]

/-! ## Bounds up to a symbol -/

/-- A symbol is in the set if an odd number of bounds lies below it or on it. -/
theorem mem_iff_odd {a : RangeSet σ} {x : σ} :
    x ∈ a ↔ a.bounds.countP (fun b => decide (rank b ≤ rank x)) % 2 = 1 := by
  suffices h : ∀ (s : Bool) (bounds : List σ), Ascending bounds →
      stateAt s bounds x =
        (s ^^ decide (bounds.countP (fun b => decide (rank b ≤ rank x)) % 2 = 1)) by
    rw [mem_iff, contains, h false a.bounds a.ascending, Bool.false_xor, decide_eq_true_iff]
  intro s bounds hasc
  induction bounds generalizing s with
  | nil => simp [stateAt]
  | cons b rest ih =>
    obtain ⟨hb, hrest⟩ := List.pairwise_cons.1 hasc
    rw [stateAt_cons]
    by_cases hle : rank b ≤ rank x
    · rw [if_pos hle, ih (!s) hrest, List.countP_cons_of_pos (by simpa using hle)]
      rcases Nat.mod_two_eq_zero_or_one (rest.countP fun b => decide (rank b ≤ rank x))
        with heven | hodd
      · rw [heven, show (_ + 1) % 2 = 1 by omega]
        cases s <;> rfl
      · rw [hodd, show (_ + 1) % 2 = 0 by omega]
        cases s <;> rfl
    · have hzero : (b :: rest).countP (fun b => decide (rank b ≤ rank x)) = 0 := by
        refine List.countP_eq_zero.2 fun c hc => ?_
        rcases List.mem_cons.1 hc with rfl | hc
        · simpa using hle
        · have := hb c hc
          simp only [decide_eq_true_eq]
          omega
      rw [if_neg hle, hzero]
      cases s <;> rfl

/-! ## The first bounds -/

theorem lt_of_mem_tail {b x : σ} {rest : List σ} (h : Ascending (b :: rest))
    (hx : x ∈ (⟨rest, h.of_cons⟩ : RangeSet σ)) : rank b < rank x := by
  refine Nat.lt_of_not_le fun hle => ?_
  have hout : stateAt false rest x = false := stateAt_of_lt fun c hc =>
    Nat.lt_of_le_of_lt hle (List.rel_of_pairwise_cons h hc)
  exact Bool.false_ne_true (hout.symm.trans hx)

/-- The first two bounds enclose a run, and the others are the bounds of the rest. -/
theorem mem_cons_cons {s e x : σ} {rest : List σ} {h : Ascending (s :: e :: rest)} :
    x ∈ (⟨s :: e :: rest, h⟩ : RangeSet σ) ↔
      rank s ≤ rank x ∧ rank x < rank e ∨ x ∈ (⟨rest, h.of_cons.of_cons⟩ : RangeSet σ) := by
  have hse : rank s < rank e := List.rel_of_pairwise_cons h List.mem_cons_self
  have habove := lt_of_mem_tail (x := x) h.of_cons
  show stateAt false (s :: e :: rest) x = true ↔ _
  rw [stateAt_cons, stateAt_cons, Bool.not_not]
  by_cases hs : rank s ≤ rank x
  · by_cases he : rank e ≤ rank x
    · rw [if_pos hs, if_pos he]
      exact ⟨.inr, fun hx => hx.resolve_left fun hx => by omega⟩
    · rw [if_pos hs, if_neg he]
      exact iff_of_true rfl (.inl ⟨hs, by omega⟩)
  · rw [if_neg hs]
    refine iff_of_false Bool.false_ne_true ?_
    rintro (hx | hx)
    · exact hs hx.1
    · have := habove hx
      omega

/-! ## Simple sets -/

@[simp] theorem not_mem_empty {x : σ} : ¬ x ∈ (empty : RangeSet σ) := Bool.false_ne_true

theorem mem_pair {x y z : σ} {h : Ascending [x, y]} :
    z ∈ (⟨[x, y], h⟩ : RangeSet σ) ↔ rank x ≤ rank z ∧ rank z < rank y :=
  mem_cons_cons.trans (or_iff_left not_mem_empty)

@[simp] theorem mem_greaterEqual {x y : σ} : y ∈ greaterEqual x ↔ rank x ≤ rank y := by
  show (if rank x ≤ rank y then !false else false) = true ↔ _
  split <;> simp [*]

@[simp] theorem mem_full {x : σ} : x ∈ (full : RangeSet σ) :=
  mem_greaterEqual.2 (by rw [Symbol.rank_least]; omega)

@[simp] theorem mem_greaterThan {x y : σ} : y ∈ greaterThan x ↔ rank x < rank y := by
  unfold greaterThan
  split
  case h_1 z hz => rw [mem_greaterEqual, Symbol.rank_next hz]; omega
  case h_2 hz =>
    have := Symbol.next?_eq_none hz
    have := Symbol.rank_lt y
    exact iff_of_false not_mem_empty (by omega)

@[simp] theorem mem_lessThan {x y : σ} : y ∈ lessThan x ↔ rank y < rank x := by
  unfold lessThan
  split
  case isTrue h => exact iff_of_false not_mem_empty (by omega)
  case isFalse h => rw [mem_pair, Symbol.rank_least]; omega

@[simp] theorem mem_lessEqual {x y : σ} : y ∈ lessEqual x ↔ rank y ≤ rank x := by
  unfold lessEqual
  split
  case h_1 z hz => rw [mem_lessThan, Symbol.rank_next hz]; omega
  case h_2 hz =>
    have := Symbol.next?_eq_none hz
    have := Symbol.rank_lt y
    exact iff_of_true mem_full (by omega)

@[simp] theorem mem_only {x y : σ} : y ∈ only x ↔ y = x := by
  rw [Symbol.eq_iff_rank_eq]
  unfold only
  split
  case h_1 z hz => rw [mem_pair, Symbol.rank_next hz]; omega
  case h_2 hz =>
    have := Symbol.next?_eq_none hz
    have := Symbol.rank_lt y
    rw [mem_greaterEqual]; omega

@[simp] theorem mem_range {s e x : σ} : x ∈ range s e ↔ rank s ≤ rank x ∧ rank x ≤ rank e := by
  simp [range]

@[simp] theorem mem_allExcept {x y : σ} : y ∈ allExcept x ↔ y ≠ x := by
  simp [allExcept]

@[simp] theorem mem_symmetricDifference {a b : RangeSet σ} {x : σ} :
    x ∈ symmetricDifference a b ↔ ¬ (x ∈ a ↔ x ∈ b) := by
  simp [symmetricDifference]

/-! ## Ignored symbols -/

section DontCare

variable {a ignored : RangeSet σ} {x : σ}

/-- The points of both sets, with the memberships from each of them on. -/
theorem sweep_points (a b : RangeSet σ) :
    (sweep false false a.bounds b.bounds).Pairwise (fun p q => rank p.1 < rank q.1) :=
  sweep_ascending _ _ a.ascending b.ascending

theorem valueAt_points (a b : RangeSet σ) (x : σ) :
    valueAt (false, false) (sweep false false a.bounds b.bounds) x =
      (a.contains x, b.contains x) :=
  valueAt_sweep false false x a.ascending b.ascending

theorem contains_dontCare_eq (a ignored : RangeSet σ) (x : σ) :
    (a.dontCare ignored).contains x =
      (valueAt (false, false) ((sweep false false a.bounds ignored.bounds).filter (!·.2.2)) x).1 := by
  have hmap := valueAt_map (fun s : Bool × Bool => s.1) (false, false)
    ((sweep false false a.bounds ignored.bounds).filter (!·.2.2)) x
  refine Eq.trans (stateAt_flips false x ?_) hmap
  exact List.pairwise_map.2 ((sweep_points a ignored).sublist List.filter_sublist)

theorem contains_dontCare_of_not_mem (h : ¬ x ∈ ignored) :
    (a.dontCare ignored).contains x = a.contains x := by
  have hvalue := valueAt_points a ignored x
  have hx : (!(valueAt (false, false) (sweep false false a.bounds ignored.bounds) x).2) = true := by
    rw [hvalue, Bool.not_eq_true']
    exact Bool.eq_false_iff.2 h
  rw [contains_dontCare_eq, valueAt_filter (fun s => !s.2) (sweep_points a ignored)
    (fun _ => rfl) hx, hvalue]

/-- A point that is kept is no ignored symbol. -/
theorem not_mem_of_kept {p : σ × Bool × Bool}
    (hp : p ∈ (sweep false false a.bounds ignored.bounds).filter (!·.2.2)) : ¬ p.1 ∈ ignored := by
  obtain ⟨hmem, hkept⟩ := List.mem_filter.1 hp
  have hvalue := valueAt_points a ignored p.1
  rw [valueAt_of_mem (sweep_points a ignored) hmem] at hvalue
  rw [hvalue, Bool.not_eq_true'] at hkept
  exact Bool.eq_false_iff.1 hkept

/-- An ignored symbol has the state of the one before it, and the first symbol is outside then. -/
theorem contains_dontCare_of_mem (h : x ∈ ignored) :
    (a.dontCare ignored).contains x =
      ((prev? x).map (a.dontCare ignored).contains).getD false := by
  have hne : ∀ p ∈ (sweep false false a.bounds ignored.bounds).filter (!·.2.2),
      rank p.1 ≠ rank x := by
    intro p hp heq
    rw [← Symbol.eq_iff_rank_eq] at heq
    exact not_mem_of_kept hp (heq ▸ h)
  cases hprev : prev? x with
  | none =>
    have hzero := Symbol.prev?_eq_none_iff.1 hprev
    have hnone := valueAt_of_lt (v := (false, false)) (x := x) fun p hp =>
      (by have := hne p hp; omega : rank x < rank p.1)
    rw [contains_dontCare_eq, hnone]
    rfl
  | some w =>
    have hw := Symbol.rank_prev hprev
    have hsame := valueAt_congr (false, false) (x := x) (y := w) fun p hp =>
      (by have := hne p hp; omega : rank p.1 ≤ rank x ↔ rank p.1 ≤ rank w)
    rw [contains_dontCare_eq, hsame, Option.map_some, Option.getD_some, contains_dontCare_eq]

/-- A symbol is in the set if the last symbol up to it that is not ignored is in `a`. -/
theorem mem_dontCare : x ∈ a.dontCare ignored ↔
    ∃ y, rank y ≤ rank x ∧ y ∈ a ∧ ¬ y ∈ ignored ∧
      ∀ z, rank y < rank z → rank z ≤ rank x → z ∈ ignored := by
  induction hn : rank x using Nat.strongRecOn generalizing x with
  | ind n ih =>
    subst hn
    by_cases h : x ∈ ignored
    · -- The last symbol that is not ignored is not `x` itself.
      have hbefore : ∀ y, ¬ y ∈ ignored → rank y ≠ rank x :=
        fun y hnot heq => hnot (Symbol.rank_inj heq ▸ h)
      rw [mem_iff, contains_dontCare_of_mem h]
      cases hprev : prev? x with
      | none =>
        have hzero := Symbol.prev?_eq_none_iff.1 hprev
        refine iff_of_false Bool.false_ne_true ?_
        rintro ⟨y, hy, -, hnot, -⟩
        have := hbefore y hnot
        omega
      | some w =>
        have hw := Symbol.rank_prev hprev
        rw [Option.map_some, Option.getD_some, ← mem_iff, ih (rank w) (by omega) rfl]
        refine exists_congr fun y => ⟨?_, ?_⟩
        · rintro ⟨hy, hmem, hnot, hall⟩
          refine ⟨by omega, hmem, hnot, fun z hz hz' => ?_⟩
          by_cases hzx : rank z = rank x
          · exact Symbol.rank_inj hzx ▸ h
          · exact hall z hz (by omega)
        · rintro ⟨hy, hmem, hnot, hall⟩
          have := hbefore y hnot
          exact ⟨by omega, hmem, hnot, fun z hz hz' => hall z hz (by omega)⟩
    · rw [mem_iff, contains_dontCare_of_not_mem h]
      constructor
      · intro hx
        exact ⟨x, Nat.le_refl _, hx, h, fun z hz hz' => by omega⟩
      · rintro ⟨y, hy, hmem, -, hall⟩
        by_cases hyx : rank y = rank x
        · exact Symbol.rank_inj hyx ▸ hmem
        · exact absurd (hall x (by omega) (Nat.le_refl _)) h

end DontCare

/-! ## Several sets -/

@[simp] theorem mem_unionAll {sets : List (RangeSet σ)} {x : σ} :
    x ∈ unionAll sets ↔ ∃ a ∈ sets, x ∈ a := by
  suffices h : ∀ acc : RangeSet σ, x ∈ sets.foldl (· ∪ ·) acc ↔ x ∈ acc ∨ ∃ a ∈ sets, x ∈ a by
    exact (h empty).trans (or_iff_right not_mem_empty)
  induction sets with
  | nil => simp
  | cons a sets ih =>
    intro acc
    simp [ih, or_assoc]

@[simp] theorem mem_intersectionAll {sets : List (RangeSet σ)} {x : σ} :
    x ∈ intersectionAll sets ↔ ∀ a ∈ sets, x ∈ a := by
  suffices h : ∀ acc : RangeSet σ, x ∈ sets.foldl (· ∩ ·) acc ↔ x ∈ acc ∧ ∀ a ∈ sets, x ∈ a by
    exact (h full).trans (and_iff_right mem_full)
  induction sets with
  | nil => simp
  | cons a sets ih =>
    intro acc
    simp [ih, and_assoc]

@[simp] theorem mem_anyOf {items : List σ} {x : σ} : x ∈ anyOf items ↔ x ∈ items := by
  rw [anyOf, mem_unionAll]
  constructor
  · rintro ⟨a, ha, hx⟩
    obtain ⟨y, hy, rfl⟩ := List.mem_map.1 ha
    exact mem_only.1 hx ▸ hy
  · intro hx
    exact ⟨only x, List.mem_map_of_mem hx, mem_only.2 rfl⟩

@[simp] theorem mem_anyExcept {items : List σ} {x : σ} : x ∈ anyExcept items ↔ ¬ x ∈ items := by
  simp only [anyExcept, mem_intersectionAll, List.forall_mem_map, mem_allExcept]
  exact ⟨fun h hx => h x hx rfl, fun h y hy heq => h (heq ▸ hy)⟩

/-! ## Questions -/

theorem isEmpty_iff {a : RangeSet σ} : a.isEmpty = true ↔ ∀ x, ¬ x ∈ a := by
  obtain ⟨bounds, h⟩ := a
  cases bounds with
  | nil => exact iff_of_true rfl fun x => not_mem_empty
  | cons b bs =>
    -- The first bound is in the set.
    have hb : b ∈ (⟨b :: bs, h⟩ : RangeSet σ) := stateAt_head h
    exact iff_of_false Bool.false_ne_true fun hall => hall b hb

theorem isEmpty_eq_false_iff {a : RangeSet σ} : a.isEmpty = false ↔ ∃ x, x ∈ a := by
  rw [← Bool.not_eq_true, isEmpty_iff]
  exact Classical.not_forall_not

theorem isDisjoint_iff {a b : RangeSet σ} :
    a.isDisjoint b = true ↔ ∀ x, x ∈ a → ¬ x ∈ b := by
  simp only [isDisjoint, isEmpty_iff, mem_inter, not_and]

theorem isDisjoint_comm {a b : RangeSet σ} : a.isDisjoint b = b.isDisjoint a := by
  rw [Bool.eq_iff_iff, isDisjoint_iff, isDisjoint_iff]
  exact ⟨fun h x hb ha => h x ha hb, fun h x ha hb => h x hb ha⟩

end Munch.RangeSet
