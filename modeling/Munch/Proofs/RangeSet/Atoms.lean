-- SUMMARY: The pieces of a splitter are a partition that the sets do not cut, also if gathered.
import Munch.RangeSet.Gather
import Munch.RangeSet.Lemmas
import Munch.Splitter
import Mathlib.Data.List.Pairwise

/-! # Atoms and gathered sets

Splitting the domain by sets gives a partition whose pieces lie inside or
outside of each set, so that what holds of one symbol of a piece holds of all.
Gathering labelled sets changes neither which symbols have which label nor that
no symbol has two. Gathering by finer labels first makes no difference. -/

namespace Munch

variable {σ : Type} [Symbol σ]

/-! ## Partitions of the domain -/

/-- Of sets that do not meet only one holds a symbol. -/
theorem RangeSet.eq_of_mem_of_mem {β : Type} {f : β → RangeSet σ} {l : List β}
    (h : l.Pairwise fun t u => (f t).isDisjoint (f u) = true) {t u : β} (ht : t ∈ l) (hu : u ∈ l)
    {x : σ} (hxt : x ∈ f t) (hxu : x ∈ f u) : t = u := by
  have hsymm : Std.Symm fun t u : β => (f t).isDisjoint (f u) = true :=
    ⟨fun _ _ hdisj => isDisjoint_comm.trans hdisj⟩
  by_contra hne
  exact isDisjoint_iff.1 (h.forall ht hu hne) x hxt hxu

/-- The sets are nonempty and disjoint, and every symbol is in one of them. -/
structure RangeSet.IsPartition (pieces : List (RangeSet σ)) : Prop where
  nonempty : ∀ {p}, p ∈ pieces → ∃ x, x ∈ p
  disjoint : pieces.Pairwise fun p q => p.isDisjoint q = true
  cover : ∀ x, ∃ p ∈ pieces, x ∈ p

/-- Two symbols are in one piece. -/
def RangeSet.Together (pieces : List (RangeSet σ)) (x y : σ) : Prop := ∃ p ∈ pieces, x ∈ p ∧ y ∈ p

/-- Every piece lies inside the set or outside of it. -/
def RangeSet.Uncut (pieces : List (RangeSet σ)) (set : RangeSet σ) : Prop :=
  ∀ p ∈ pieces, ∀ x ∈ p, ∀ y ∈ p, x ∈ set ↔ y ∈ set

namespace Splitter

open RangeSet

theorem mem_halves {set piece q : RangeSet σ} :
    q ∈ halves set piece ↔ (q = piece ∩ set ∨ q = piece \ set) ∧ ∃ x, x ∈ q := by
  simp [halves, isEmpty_eq_false_iff]

theorem subset_of_mem_halves {set piece q : RangeSet σ} {x : σ} (hq : q ∈ halves set piece)
    (hx : x ∈ q) : x ∈ piece := by
  rcases (mem_halves.1 hq).1 with rfl | rfl
  · exact (mem_inter.1 hx).1
  · exact (mem_sdiff.1 hx).1

theorem halves_disjoint (set piece : RangeSet σ) :
    (halves set piece).Pairwise fun p q => p.isDisjoint q = true := by
  refine List.Pairwise.filter _ ?_
  rw [List.pairwise_pair, isDisjoint_iff]
  intro x hx hx'
  exact (mem_sdiff.1 hx').2 (mem_inter.1 hx).2

theorem together_whole (x y : σ) : Together (whole : Splitter σ).pieces x y :=
  ⟨full, List.mem_singleton_self _, mem_full, mem_full⟩

/-- A split takes apart those symbols of which one is in the set and one is not. -/
theorem together_split {p : Splitter σ} {set : RangeSet σ} {x y : σ} :
    Together (p.split set).pieces x y ↔ Together p.pieces x y ∧ (x ∈ set ↔ y ∈ set) := by
  constructor
  · rintro ⟨q, hq, hx, hy⟩
    obtain ⟨piece, hpiece, hq⟩ := List.mem_flatMap.1 hq
    refine ⟨⟨piece, hpiece, subset_of_mem_halves hq hx, subset_of_mem_halves hq hy⟩, ?_⟩
    rcases (mem_halves.1 hq).1 with rfl | rfl
    · exact iff_of_true (mem_inter.1 hx).2 (mem_inter.1 hy).2
    · exact iff_of_false (mem_sdiff.1 hx).2 (mem_sdiff.1 hy).2
  · rintro ⟨⟨piece, hpiece, hx, hy⟩, hset⟩
    by_cases hin : x ∈ set
    · have hx : x ∈ piece ∩ set := mem_inter.2 ⟨hx, hin⟩
      exact ⟨_, List.mem_flatMap.2 ⟨piece, hpiece, mem_halves.2 ⟨.inl rfl, x, hx⟩⟩, hx,
        mem_inter.2 ⟨hy, hset.1 hin⟩⟩
    · have hx : x ∈ piece \ set := mem_sdiff.2 ⟨hx, hin⟩
      exact ⟨_, List.mem_flatMap.2 ⟨piece, hpiece, mem_halves.2 ⟨.inr rfl, x, hx⟩⟩, hx,
        mem_sdiff.2 ⟨hy, mt hset.2 hin⟩⟩

theorem together_splitAll {p : Splitter σ} {sets : List (RangeSet σ)} {x y : σ} :
    Together (p.splitAll sets).pieces x y ↔
      Together p.pieces x y ∧ ∀ set ∈ sets, x ∈ set ↔ y ∈ set := by
  induction sets generalizing p with
  | nil => exact (and_iff_left (List.forall_mem_nil _)).symm
  | cons set sets ih =>
    show Together ((p.split set).splitAll sets).pieces x y ↔ _
    rw [ih, together_split, and_assoc, List.forall_mem_cons]

theorem whole_isPartition : IsPartition (whole : Splitter σ).pieces where
  nonempty := by
    intro p hp
    cases List.mem_singleton.1 hp
    exact ⟨Symbol.least, mem_full⟩
  disjoint := List.pairwise_singleton ..
  cover x := ⟨full, List.mem_singleton_self _, mem_full⟩

theorem split_isPartition {p : Splitter σ} (h : IsPartition p.pieces) (set : RangeSet σ) :
    IsPartition (p.split set).pieces where
  nonempty := by
    intro q hq
    obtain ⟨piece, -, hq⟩ := List.mem_flatMap.1 hq
    exact (mem_halves.1 hq).2
  disjoint := by
    refine List.pairwise_flatMap.2 ⟨fun piece _ => halves_disjoint set piece, ?_⟩
    refine h.disjoint.imp ?_
    intro piece piece' hdisj q hq q' hq'
    rw [isDisjoint_iff] at hdisj ⊢
    intro x hx hx'
    exact hdisj x (subset_of_mem_halves hq hx) (subset_of_mem_halves hq' hx')
  cover := by
    intro x
    obtain ⟨piece, hpiece, hx⟩ := h.cover x
    obtain ⟨q, hq, hx, -⟩ := together_split.2 ⟨⟨piece, hpiece, hx, hx⟩, Iff.rfl⟩
    exact ⟨q, hq, hx⟩

theorem splitAll_isPartition {p : Splitter σ} (h : IsPartition p.pieces)
    (sets : List (RangeSet σ)) : IsPartition (p.splitAll sets).pieces := by
  induction sets generalizing p with
  | nil => exact h
  | cons set sets ih => exact ih (split_isPartition h set)

theorem atoms_isPartition (sets : List (RangeSet σ)) : IsPartition (atoms sets) :=
  splitAll_isPartition whole_isPartition sets

/-- Symbols are in one piece if no set has one of them and not the other. -/
theorem together_atoms {sets : List (RangeSet σ)} {x y : σ} :
    Together (atoms sets) x y ↔ ∀ set ∈ sets, x ∈ set ↔ y ∈ set :=
  together_splitAll.trans (and_iff_right (together_whole x y))

theorem uncut_atoms {sets : List (RangeSet σ)} {set : RangeSet σ} (h : set ∈ sets) :
    Uncut (atoms sets) set :=
  fun p hp _ hx _ hy => together_atoms.1 ⟨p, hp, hx, hy⟩ set h

/-- A piece meets a set in all of its symbols or in none. -/
theorem isDisjoint_atom {sets : List (RangeSet σ)} {set p : RangeSet σ} {x : σ}
    (hset : set ∈ sets) (hp : p ∈ atoms sets) (hx : x ∈ p) :
    set.isDisjoint p = !set.contains x := by
  rw [Bool.eq_iff_iff, isDisjoint_iff, Bool.not_eq_true', ← Bool.not_eq_true]
  constructor
  · intro h hmem
    exact h x hmem hx
  · intro h y hy hyp
    exact h ((uncut_atoms hset p hp y hyp x hx).1 hy)

end Splitter

/-! ## Gathering -/

namespace RangeSet

variable {κ : Type}

/-- The symbol is in a set with the label. -/
def Labels (entries : List (RangeSet σ × κ)) (x : σ) (label : κ) : Prop :=
  ∃ set, (set, label) ∈ entries ∧ x ∈ set

theorem labels_cons {e : RangeSet σ × κ} {entries : List (RangeSet σ × κ)} {x : σ} {label : κ} :
    Labels (e :: entries) x label ↔ (x ∈ e.1 ∧ e.2 = label) ∨ Labels entries x label := by
  constructor
  · rintro ⟨set, hmem, hx⟩
    rcases List.mem_cons.1 hmem with rfl | hmem
    · exact .inl ⟨hx, rfl⟩
    · exact .inr ⟨set, hmem, hx⟩
  · rintro (⟨hx, rfl⟩ | ⟨set, hmem, hx⟩)
    · exact ⟨e.1, List.mem_cons_self, hx⟩
    · exact ⟨set, List.mem_cons_of_mem _ hmem, hx⟩

theorem labels_of_find? {entries : List (RangeSet σ × κ)} {x : σ} {e : RangeSet σ × κ}
    (h : entries.find? (·.1.contains x) = some e) : Labels entries x e.2 := by
  have hx : e.1.contains x = true :=
    List.find?_some (p := fun e : RangeSet σ × κ => e.1.contains x) h
  exact ⟨e.1, List.mem_of_find?_eq_some h, hx⟩

/-- Sets that do not meet give a symbol one label at most. -/
theorem Labels.unique {entries : List (RangeSet σ × κ)}
    (h : entries.Pairwise fun t u => t.1.isDisjoint u.1 = true) {x : σ} {k k' : κ}
    (hk : Labels entries x k) (hk' : Labels entries x k') : k = k' := by
  obtain ⟨set, hmem, hx⟩ := hk
  obtain ⟨set', hmem', hx'⟩ := hk'
  exact congrArg Prod.snd (eq_of_mem_of_mem h hmem hmem' hx hx')

/-- Sets with different labels do not meet if no symbol has two labels. -/
theorem pairwise_isDisjoint {entries : List (RangeSet σ × κ)}
    (hnodup : (entries.map Prod.snd).Nodup)
    (hunique : ∀ x k k', Labels entries x k → Labels entries x k' → k = k') :
    entries.Pairwise fun t u => t.1.isDisjoint u.1 = true := by
  have hne : entries.Pairwise fun t u => t.2 ≠ u.2 := List.pairwise_map.1 hnodup
  refine hne.imp_of_mem ?_
  intro t u ht hu hlabels
  rw [isDisjoint_iff]
  intro x hxt hxu
  exact hlabels (hunique x t.2 u.2 ⟨t.1, ht, hxt⟩ ⟨u.1, hu, hxu⟩)

variable [DecidableEq κ]

theorem labels_gather {entries : List (RangeSet σ × κ)} {set : RangeSet σ} {k label : κ} {x : σ} :
    Labels (gather entries set k) x label ↔ Labels entries x label ∨ (x ∈ set ∧ k = label) := by
  induction entries with
  | nil => rw [gather, labels_cons, or_comm]
  | cons e entries ih =>
    obtain ⟨s, l⟩ := e
    rw [gather]
    split
    case isTrue hl =>
      subst hl
      rw [labels_cons, labels_cons, mem_union, or_and_right, or_right_comm]
    case isFalse => rw [labels_cons, labels_cons, ih, or_assoc]

theorem map_snd_gather (entries : List (RangeSet σ × κ)) (set : RangeSet σ) (k : κ) :
    (gather entries set k).map Prod.snd =
      if k ∈ entries.map Prod.snd then entries.map Prod.snd else entries.map Prod.snd ++ [k] := by
  induction entries with
  | nil => rfl
  | cons e entries ih =>
    obtain ⟨s, l⟩ := e
    rw [gather]
    by_cases hl : l = k
    · subst hl
      simp
    · rw [if_neg hl, List.map_cons, ih]
      by_cases hk : k ∈ entries.map Prod.snd
      · rw [if_pos hk, List.map_cons, if_pos (List.mem_cons_of_mem _ hk)]
      · have : k ∉ l :: entries.map Prod.snd := by
          intro h
          rcases List.mem_cons.1 h with h | h
          · exact hl h.symm
          · exact hk h
        rw [if_neg hk, List.map_cons, if_neg this, List.cons_append]

theorem gather_nonempty {entries : List (RangeSet σ × κ)} {set : RangeSet σ} (k : κ)
    (h : ∀ e ∈ entries, ∃ x, x ∈ e.1) (hset : ∃ x, x ∈ set) :
    ∀ e ∈ gather entries set k, ∃ x, x ∈ e.1 := by
  induction entries with
  | nil =>
    intro e he
    cases List.mem_singleton.1 he
    exact hset
  | cons e entries ih =>
    obtain ⟨hs, hrest⟩ := List.forall_mem_cons.1 h
    rw [gather]
    split
    · refine List.forall_mem_cons.2 ⟨?_, hrest⟩
      obtain ⟨x, hx⟩ := hs
      exact ⟨x, mem_union.2 (.inl hx)⟩
    · exact List.forall_mem_cons.2 ⟨hs, ih hrest⟩

/-- What each step of gathering keeps, all steps keep. -/
theorem gatherAll_induction {P : List (RangeSet σ × κ) → List (RangeSet σ × κ) → Prop}
    (hnil : P [] [])
    (hstep : ∀ done acc e, P done acc → P (done ++ [e]) (gather acc e.1 e.2))
    (entries : List (RangeSet σ × κ)) : P entries (gatherAll entries) := by
  suffices h : ∀ done acc, P done acc →
      P (done ++ entries) (entries.foldl (fun acc e => gather acc e.1 e.2) acc) from h [] [] hnil
  induction entries with
  | nil =>
    intro done acc h
    simpa using h
  | cons e entries ih =>
    intro done acc h
    simpa using ih (done ++ [e]) _ (hstep done acc e h)

theorem labels_gatherAll {entries : List (RangeSet σ × κ)} {x : σ} {label : κ} :
    Labels (gatherAll entries) x label ↔ Labels entries x label := by
  refine gatherAll_induction (P := fun es acc => Labels acc x label ↔ Labels es x label)
    Iff.rfl ?_ entries
  intro es acc e h
  rw [labels_gather, h]
  simp only [Labels, List.mem_append, List.mem_singleton]
  grind

theorem nodup_gatherAll (entries : List (RangeSet σ × κ)) :
    ((gatherAll entries).map Prod.snd).Nodup := by
  refine gatherAll_induction (P := fun _ acc => (acc.map Prod.snd).Nodup) List.nodup_nil ?_ entries
  intro _ acc e h
  rw [map_snd_gather]
  split
  case isTrue => exact h
  case isFalse hk => exact List.nodup_append.2 ⟨h, by simp, by grind⟩

theorem gatherAll_nonempty {entries : List (RangeSet σ × κ)} (h : ∀ e ∈ entries, ∃ x, x ∈ e.1) :
    ∀ e ∈ gatherAll entries, ∃ x, x ∈ e.1 := by
  refine gatherAll_induction
    (P := fun es acc => (∀ e ∈ es, ∃ x, x ∈ e.1) → ∀ e ∈ acc, ∃ x, x ∈ e.1) ?_ ?_ entries h
  · intro _ e he
    cases he
  · intro es acc e ih hes
    have hacc := ih fun e' he' => hes e' (List.mem_append_left _ he')
    exact gather_nonempty e.2 hacc (hes e (by simp))

theorem gatherAll_disjoint {entries : List (RangeSet σ × κ)}
    (h : entries.Pairwise fun t u => t.1.isDisjoint u.1 = true) :
    (gatherAll entries).Pairwise fun t u => t.1.isDisjoint u.1 = true := by
  refine pairwise_isDisjoint (nodup_gatherAll entries) ?_
  intro x k k' hk hk'
  exact Labels.unique h (labels_gatherAll.1 hk) (labels_gatherAll.1 hk')

/-! ### Gathering again

Entries may be gathered by a label that depends on another one, by which they have been gathered
already. -/

theorem gather_of_not_mem {entries : List (RangeSet σ × κ)} {set : RangeSet σ} {k : κ}
    (h : k ∉ entries.map Prod.snd) : gather entries set k = entries ++ [(set, k)] := by
  induction entries with
  | nil => rfl
  | cons e entries ih =>
    obtain ⟨s, l⟩ := e
    obtain ⟨hl, hrest⟩ := not_or.1 (mt List.mem_cons.2 h)
    rw [gather, if_neg (Ne.symm hl), ih hrest]
    rfl

/-- Where no label occurs twice, there is nothing to gather. -/
theorem gatherAll_of_nodup {entries : List (RangeSet σ × κ)}
    (h : (entries.map Prod.snd).Nodup) : gatherAll entries = entries := by
  refine gatherAll_induction (P := fun es acc => (es.map Prod.snd).Nodup → acc = es) (fun _ => rfl)
    ?_ entries h
  intro es acc e ih hnodup
  rw [List.map_append, List.nodup_append] at hnodup
  obtain ⟨hes, -, hlast⟩ := hnodup
  rw [ih hes, gather_of_not_mem]
  exact fun hmem => hlast e.2 hmem e.2 (by simp) rfl

theorem mem_labels_gather (entries : List (RangeSet σ × κ)) (set : RangeSet σ) (k : κ) :
    k ∈ (gather entries set k).map Prod.snd := by
  rw [map_snd_gather]
  split
  case isTrue h => exact h
  case isFalse => simp

theorem gather_gather_same (entries : List (RangeSet σ × κ)) (s t : RangeSet σ) (k : κ) :
    gather (gather entries s k) t k = gather entries (s ∪ t) k := by
  induction entries with
  | nil => simp [gather]
  | cons e entries ih =>
    obtain ⟨u, l⟩ := e
    by_cases hl : l = k
    · simp only [gather, if_pos hl, union_assoc]
    · simp only [gather, if_neg hl, ih]

/-- The label has its place already, so the order of the two does not matter. -/
theorem gather_gather_comm {entries : List (RangeSet σ × κ)} {k : κ}
    (h : k ∈ entries.map Prod.snd) (s t : RangeSet σ) (l : κ) :
    gather (gather entries s k) t l = gather (gather entries t l) s k := by
  induction entries with
  | nil => cases h
  | cons e entries ih =>
    obtain ⟨u, m⟩ := e
    by_cases hk : m = k
    · by_cases hl : m = l
      · simp only [gather, if_pos hk, if_pos hl, union_right_comm]
      · simp only [gather, if_pos hk, if_neg hl]
    · have hrest : k ∈ entries.map Prod.snd := (List.mem_cons.1 h).resolve_left (Ne.symm hk)
      by_cases hl : m = l
      · simp only [gather, if_neg hk, if_pos hl]
      · simp only [gather, if_neg hk, if_neg hl, ih hrest]

theorem foldl_gather_comm {acc : List (RangeSet σ × κ)} {k : κ} (h : k ∈ acc.map Prod.snd)
    (s : RangeSet σ) (entries : List (RangeSet σ × κ)) :
    entries.foldl (fun acc e => gather acc e.1 e.2) (gather acc s k) =
      gather (entries.foldl (fun acc e => gather acc e.1 e.2) acc) s k := by
  induction entries generalizing acc with
  | nil => rfl
  | cons e entries ih =>
    have hmem : k ∈ (gather acc e.1 e.2).map Prod.snd := by
      rw [map_snd_gather]
      split
      case isTrue => exact h
      case isFalse => exact List.mem_append_left _ h
    rw [List.foldl_cons, List.foldl_cons, gather_gather_comm h, ih hmem]

variable {κ' : Type} [DecidableEq κ']

theorem foldl_gather_map (f : κ → κ') (entries : List (RangeSet σ × κ)) (set : RangeSet σ) (k : κ)
    (acc : List (RangeSet σ × κ')) :
    ((gather entries set k).map fun e => (e.1, f e.2)).foldl (fun acc e => gather acc e.1 e.2) acc =
      gather ((entries.map fun e => (e.1, f e.2)).foldl (fun acc e => gather acc e.1 e.2) acc) set
        (f k) := by
  induction entries generalizing acc with
  | nil => rfl
  | cons e entries ih =>
    obtain ⟨s, l⟩ := e
    by_cases hl : l = k
    · subst hl
      rw [gather, if_pos rfl, List.map_cons, List.map_cons, List.foldl_cons, List.foldl_cons,
        ← gather_gather_same, foldl_gather_comm (mem_labels_gather _ _ _)]
    · rw [gather, if_neg hl]
      exact ih _

theorem gatherAll_gatherAll (f : κ → κ') (entries : List (RangeSet σ × κ)) :
    gatherAll ((gatherAll entries).map fun e => (e.1, f e.2)) =
      gatherAll (entries.map fun e => (e.1, f e.2)) := by
  refine gatherAll_induction (P := fun es acc =>
    gatherAll (acc.map fun e => (e.1, f e.2)) = gatherAll (es.map fun e => (e.1, f e.2)))
    rfl ?_ entries
  intro es acc e ih
  rw [List.map_append, gatherAll, gatherAll, foldl_gather_map, List.foldl_append]
  exact congrArg (fun acc => gather acc e.1 (f e.2)) ih

end RangeSet

end Munch
