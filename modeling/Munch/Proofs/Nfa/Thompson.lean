-- SUMMARY: The part of the automaton that is built for a fragment reads the words of the fragment.
import Munch.Nfa.Thompson
import Munch.Proofs.Fragment
import Munch.Proofs.Nfa.Words

/-! # Automata of fragments

A step of building adds states behind those already there, and edges. What the
part of a fragment reads is said of the added edges alone, so it stays true
whatever the rest of the automaton is. Where parts are put together, each state
of the whole is described by the words that lead to it; the edges keep to the
descriptions, and the one at the exit is the language of the whole. -/

namespace Munch

variable {σ α : Type} [Symbol σ]

namespace Nfa

/-! ## Trails along described states -/

/-- The words that an edge with the label reads. -/
def Reads : Option (RangeSet σ) → List σ → Prop
  | none, w => w = []
  | some set, w => ∃ x ∈ set, w = [x]

namespace Edges

instance : EmptyCollection (Edges σ) := ⟨fun _ _ _ => False⟩

instance : Union (Edges σ) := ⟨fun e e' i l j => e i l j ∨ e' i l j⟩

/-- The edge by itself. -/
def single (source : Nat) (label : Option (RangeSet σ)) (target : Nat) : Edges σ :=
  fun i l j => i = source ∧ l = label ∧ j = target

@[simp] theorem not_empty (i : Nat) (l : Option (RangeSet σ)) (j : Nat) :
    ¬ (∅ : Edges σ) i l j :=
  id

theorem empty_union (e : Edges σ) : ∅ ∪ e = e :=
  funext fun _ => funext fun _ => funext fun _ => propext (or_iff_right id)

theorem union_empty (e : Edges σ) : e ∪ ∅ = e :=
  funext fun _ => funext fun _ => funext fun _ => propext (or_iff_left id)

end Edges

namespace Trail

variable {edge : Edges σ} {i j k : Nat} {u v w : List σ} {l : Option (RangeSet σ)}

/-- If the edges keep to a description of the states, so do the trails. -/
theorem describes {P : Nat → List σ → Prop}
    (hP : ∀ i l j u w, edge i l j → Reads l u → P i w → P j (w ++ u))
    (hp : Trail edge i v j) (hi : P i u) : P j (u ++ v) := by
  induction hp generalizing u with
  | stay => rwa [List.append_nil]
  | silent he _ ih =>
    have := hP _ _ _ [] u he rfl hi
    rw [List.append_nil] at this
    exact ih this
  | @read _ _ _ set x _ he hx _ ih =>
    rw [List.append_cons]
    exact ih (hP _ _ _ [x] u he ⟨x, hx, rfl⟩ hi)

theorem ofEdge (he : edge i l j) (hl : Reads l u) : Trail edge i u j := by
  cases l with
  | none =>
    cases hl
    exact .silent he (.stay j)
  | some set =>
    obtain ⟨x, hx, rfl⟩ := hl
    exact .read he hx (.stay j)

theorem snoc (hp : Trail edge i w j) (he : edge j l k) (hl : Reads l u) :
    Trail edge i (w ++ u) k :=
  hp.append (.ofEdge he hl)

/-- A trail begins with an edge, unless it stays. -/
theorem cases_first (hp : Trail edge i w k) :
    (i = k ∧ w = []) ∨ ∃ l j u v, edge i l j ∧ Reads l u ∧ w = u ++ v ∧ Trail edge j v k := by
  cases hp with
  | stay => exact .inl ⟨rfl, rfl⟩
  | silent he hrest => exact .inr ⟨none, _, [], _, he, rfl, rfl, hrest⟩
  | read he hx hrest => exact .inr ⟨some _, _, [_], _, he, ⟨_, hx, rfl⟩, rfl, hrest⟩

/-- A trail that ends where no edge does has not left its start. -/
theorem eq_of_no_edge (hp : Trail edge i w j) (hnone : ∀ i l, ¬ edge i l j) : i = j ∧ w = [] := by
  induction hp with
  | stay => exact ⟨rfl, rfl⟩
  | silent he hrest ih =>
    obtain ⟨rfl, -⟩ := ih hnone
    exact absurd he (hnone _ _)
  | read he _ hrest ih =>
    obtain ⟨rfl, -⟩ := ih hnone
    exact absurd he (hnone _ _)

end Trail

/-! ## Growing builders -/

namespace Builder

variable {b b' b'' : Builder σ α} {new new' : Edges σ}

def HasEdge (b : Builder σ α) : Edges σ := fun i l j => ⟨l, j⟩ ∈ (b.build 0).edges i

def code? (b : Builder σ α) (id : Nat) : Option α := (b.build 0).code? id

/-- States are added, and edges, but no codes. -/
structure Grows (b b' : Builder σ α) (new : Edges σ) : Prop where
  size_le : b.size ≤ b'.size
  edge_iff : ∀ {i l j}, b'.HasEdge i l j ↔ b.HasEdge i l j ∨ new i l j
  code_eq : ∀ i, b'.code? i = b.code? i

@[simp] theorem size_newState (b : Builder σ α) : b.newState.size = b.size + 1 := Array.size_push ..

@[simp] theorem size_addSilent (b : Builder σ α) (i j : Nat) : (b.addSilent i j).size = b.size :=
  Array.size_modify ..

@[simp] theorem size_addTransition (b : Builder σ α) (i : Nat) (set : RangeSet σ) (j : Nat) :
    (b.addTransition i set j).size = b.size := by
  rw [addTransition]
  split
  · rfl
  · exact Array.size_modify ..

theorem Grows.trans (h : Grows b b' new) (h' : Grows b' b'' new') : Grows b b'' (new ∪ new') where
  size_le := Nat.le_trans h.size_le h'.size_le
  edge_iff := by
    intro i l j
    rw [h'.edge_iff, h.edge_iff, or_assoc]
    rfl
  code_eq i := (h'.code_eq i).trans (h.code_eq i)

theorem grows_newState (b : Builder σ α) : Grows b b.newState ∅ where
  size_le := by simp
  edge_iff := by
    intro i l j
    have hedges : (b.newState.build 0).edges i = (b.build 0).edges i := by
      show ((b.states.push ⟨[], none⟩)[i]?.map State.edges).getD [] =
        (b.states[i]?.map State.edges).getD []
      rw [Array.getElem?_push]
      split
      case isTrue hi => simp [hi]
      case isFalse => rfl
    rw [HasEdge, hedges]
    exact (or_iff_left id).symm
  code_eq i := by
    show (b.states.push ⟨[], none⟩)[i]?.bind State.code = b.states[i]?.bind State.code
    rw [Array.getElem?_push]
    split
    case isTrue hi => simp [hi]
    case isFalse => rfl

theorem grows_addEdge {source : Nat} (hsource : source < b.size) (e : Edge σ) :
    Grows b (b.addEdge source e) (.single source e.label e.target) where
  size_le := Nat.le_of_eq (Array.size_modify ..).symm
  edge_iff := by
    intro i l j
    show _ ∈ ((b.states.modify source _)[i]?.map State.edges).getD [] ↔
      _ ∈ (b.states[i]?.map State.edges).getD [] ∨ (i = source ∧ l = e.label ∧ j = e.target)
    rw [Array.getElem?_modify]
    by_cases hi : source = i
    · subst hi
      obtain ⟨s, hs⟩ : ∃ s, b.states[source]? = some s := ⟨_, Array.getElem?_eq_getElem hsource⟩
      obtain ⟨label, target⟩ := e
      simp [hs]
    · simp [hi, Ne.symm hi]
  code_eq i := by
    show (b.states.modify source _)[i]?.bind State.code = b.states[i]?.bind State.code
    rw [Array.getElem?_modify]
    split
    · cases b.states[i]? <;> rfl
    · rfl

theorem grows_addSilent {source : Nat} (hsource : source < b.size) (target : Nat) :
    Grows b (b.addSilent source target) (.single source none target) :=
  grows_addEdge hsource _

/-- An edge with the empty set reads nothing, so it may be left out. -/
theorem grows_addTransition {source : Nat} (hsource : source < b.size) (set : RangeSet σ)
    (target : Nat) : ∃ new, Grows b (b.addTransition source set target) new ∧
      ∀ i l j, new i l j ↔ (∃ x, x ∈ set) ∧ Edges.single source (some set) target i l j := by
  rw [addTransition]
  by_cases hempty : set.isEmpty = true
  · rw [if_pos hempty]
    refine ⟨∅, ⟨Nat.le_refl _, (or_iff_left id).symm, fun _ => rfl⟩, fun i l j => ?_⟩
    have hnone : ¬ ∃ x, x ∈ set := by simpa using RangeSet.isEmpty_iff.1 hempty
    simp [hnone]
  · rw [if_neg hempty]
    refine ⟨_, grows_addEdge hsource _, fun i l j => ?_⟩
    have hsome : ∃ x, x ∈ set := RangeSet.isEmpty_eq_false_iff.1 (by simpa using hempty)
    simp [hsome]

end Builder

/-! ## Parts -/

open Builder (Grows)

/-- A part with its own entry and exit, which reads the words of a language. -/
structure Part (b b' : Builder σ α) (ends : Ends) (language : List σ → Prop) (new : Edges σ) :
    Prop where
  grows : Grows b b' new
  bounds : ends.entry = b.size ∧ b.size ≤ ends.exit ∧ ends.exit < b'.size
  inside : ∀ {i l j}, new i l j → (b.size ≤ i ∧ i < b'.size) ∧ b.size ≤ j ∧ j < b'.size
  trail_iff : ∀ w, Trail new ends.entry w ends.exit ↔ language w

/-- A part that goes on from the state `last` to `last'`, and does not come back to `last`. -/
structure Chain (b b' : Builder σ α) (last last' : Nat) (language : List σ → Prop)
    (new : Edges σ) : Prop where
  grows : Grows b b' new
  last_eq : last' = last ∨ (b.size ≤ last' ∧ last' < b'.size)
  inside : ∀ {i l j}, new i l j →
    (i = last ∨ (b.size ≤ i ∧ i < b'.size)) ∧ b.size ≤ j ∧ j < b'.size
  trail_iff : ∀ w, Trail new last w last' ↔ language w

/-- Parts side by side between the two ends, neither entered at the exit nor left at the entry. -/
structure Branches (b b' : Builder σ α) (outer : Ends) (language : List σ → Prop)
    (new : Edges σ) : Prop where
  grows : Grows b b' new
  inside : ∀ {i l j}, new i l j →
    (i = outer.entry ∨ (b.size ≤ i ∧ i < b'.size)) ∧ (j = outer.exit ∨ (b.size ≤ j ∧ j < b'.size))
  trail_iff : ∀ w, Trail new outer.entry w outer.exit ↔ language w

/-! ## Chains -/

section Chains

variable {b b₁ b' : Builder σ α} {new new₁ new₂ : Edges σ} {ends : Ends} {last last' : Nat}
  {first rest : List σ → Prop}

theorem Chain.nil (b : Builder σ α) (last : Nat) : Chain b b last last (· = []) ∅ where
  grows := ⟨Nat.le_refl _, (or_iff_left id).symm, fun _ => rfl⟩
  last_eq := .inl rfl
  inside h := h.elim
  trail_iff w := by
    constructor
    · intro hp
      exact (hp.eq_of_no_edge fun _ _ => id).2
    · rintro rfl
      exact .stay last

/-- The edges of a part, of the chain behind it, and the one that leads to the part. -/
def Chain.edges (last : Nat) (ends : Ends) (new₁ new₂ : Edges σ) : Edges σ :=
  new₁ ∪ Edges.single last none ends.entry ∪ new₂

/-- The words that lead to the states of a part and of the chain behind it. -/
def Chain.Leads (b b₁ : Builder σ α) (last : Nat) (ends : Ends) (first : List σ → Prop)
    (new₁ new₂ : Edges σ) (i : Nat) (w : List σ) : Prop :=
  (i = last ∧ w = []) ∨
  ((b.size ≤ i ∧ i < b₁.size) ∧ Trail new₁ ends.entry w i) ∨
  (b₁.size ≤ i ∧ ∃ u v, w = u ++ v ∧ first u ∧ Trail new₂ ends.exit v i)

variable (hlast : last < b.size) (h₁ : Part b b₁ ends first new₁)
  (h₂ : Chain (b₁.addSilent last ends.entry) b' ends.exit last' rest new₂)
include hlast h₁ h₂

theorem Chain.leads_step {i j : Nat} {l : Option (RangeSet σ)} {u w : List σ}
    (h : Chain.edges last ends new₁ new₂ i l j) (hu : Reads l u)
    (hi : Chain.Leads b b₁ last ends first new₁ new₂ i w) :
    Chain.Leads b b₁ last ends first new₁ new₂ j (w ++ u) := by
  have hbounds := h₁.bounds
  rcases h with (h | ⟨rfl, rfl, rfl⟩) | h
  · have hin := h₁.inside h
    rcases hi with ⟨rfl, -⟩ | ⟨-, hi⟩ | ⟨hi, -⟩
    · omega
    · exact .inr (.inl ⟨hin.2, hi.snoc h hu⟩)
    · omega
  · cases hu
    rcases hi with ⟨-, rfl⟩ | ⟨hi, -⟩ | ⟨hi, -⟩
    · exact .inr (.inl ⟨by omega, .stay _⟩)
    · omega
    · omega
  · have hin := h₂.inside h
    rw [Builder.size_addSilent] at hin
    rcases hi with ⟨rfl, -⟩ | ⟨hi, htrail⟩ | ⟨hi, x, v, rfl, hx, hv⟩
    · omega
    · obtain rfl : i = ends.exit := by omega
      exact .inr (.inr ⟨hin.2.1, w, u, rfl, (h₁.trail_iff w).1 htrail, .ofEdge h hu⟩)
    · exact .inr (.inr ⟨hin.2.1, x, v ++ u, List.append_assoc .., hx, hv.snoc h hu⟩)

theorem Chain.cons : Chain b b' last last' (fun w => ∃ u v, w = u ++ v ∧ first u ∧ rest v)
    (Chain.edges last ends new₁ new₂) where
  grows := by
    have hgrows := Builder.grows_addSilent (Nat.lt_of_lt_of_le hlast h₁.grows.size_le) ends.entry
    exact (h₁.grows.trans hgrows).trans h₂.grows
  last_eq := by
    have hbounds := h₁.bounds
    have hsize₂ := h₂.grows.size_le
    have hlast' := h₂.last_eq
    rw [Builder.size_addSilent] at hsize₂ hlast'
    omega
  inside := by
    have hbounds := h₁.bounds
    have hsize₂ := h₂.grows.size_le
    rw [Builder.size_addSilent] at hsize₂
    rintro i l j ((h | ⟨rfl, -, rfl⟩) | h)
    · have hin := h₁.inside h
      omega
    · omega
    · have hin := h₂.inside h
      rw [Builder.size_addSilent] at hin
      omega
  trail_iff w := by
    have hbounds := h₁.bounds
    have hlast' := h₂.last_eq
    rw [Builder.size_addSilent] at hlast'
    constructor
    · intro hp
      have hstart : Chain.Leads b b₁ last ends first new₁ new₂ last [] := .inl ⟨rfl, rfl⟩
      rcases hp.describes (fun i l j u w => Chain.leads_step hlast h₁ h₂) hstart with
        ⟨rfl, -⟩ | ⟨hi, htrail⟩ | ⟨-, u, v, hw, hu, hv⟩
      · omega
      · obtain rfl : last' = ends.exit := by omega
        exact ⟨w, [], (List.append_nil w).symm, (h₁.trail_iff w).1 htrail,
          (h₂.trail_iff []).1 (.stay _)⟩
      · exact ⟨u, v, hw, hu, (h₂.trail_iff v).1 hv⟩
    · rintro ⟨u, v, rfl, hu, hv⟩
      have hfirst : Trail (Chain.edges last ends new₁ new₂) ends.entry u ends.exit :=
        ((h₁.trail_iff u).2 hu).mono fun _ _ _ h => .inl (.inl h)
      have hrest : Trail (Chain.edges last ends new₁ new₂) ends.exit v last' :=
        ((h₂.trail_iff v).2 hv).mono fun _ _ _ h => .inr h
      exact .silent (.inl (.inr ⟨rfl, rfl, rfl⟩)) (hfirst.append hrest)

end Chains

/-! ## Sequences -/

section Sequences

variable {b b₁ : Builder σ α} {new : Edges σ} {last : Nat} {language : List σ → Prop}

/-- The words that lead to the states of a chain and to the exit behind it. -/
def Chain.LeadsOut (b b₁ : Builder σ α) (language : List σ → Prop) (new : Edges σ) (i : Nat)
    (w : List σ) : Prop :=
  (i < b₁.size ∧ Trail new b.size w i) ∨ (i = b₁.size ∧ language w)

variable (h : Chain b.newState b₁ b.size last language new)
include h

theorem Chain.inside_own {i j : Nat} {l : Option (RangeSet σ)} (hij : new i l j) :
    (b.size ≤ i ∧ i < b₁.size) ∧ b.size ≤ j ∧ j < b₁.size := by
  have hsize := h.grows.size_le
  have hin := h.inside hij
  rw [Builder.size_newState] at hsize hin
  omega

theorem Chain.leadsOut_step {i j : Nat} {l : Option (RangeSet σ)} {u w : List σ}
    (hij : (new ∪ Edges.single last none b₁.size) i l j) (hu : Reads l u)
    (hi : LeadsOut b b₁ language new i w) : LeadsOut b b₁ language new j (w ++ u) := by
  rcases hij with hij | ⟨rfl, rfl, rfl⟩
  · have hin := h.inside_own hij
    rcases hi with ⟨-, hi⟩ | ⟨rfl, -⟩
    · exact .inl ⟨hin.2.2, hi.snoc hij hu⟩
    · omega
  · cases hu
    rcases hi with ⟨-, hi⟩ | ⟨rfl, hw⟩
    · refine .inr ⟨rfl, ?_⟩
      rw [List.append_nil]
      exact (h.trail_iff w).1 hi
    · refine .inr ⟨rfl, ?_⟩
      rwa [List.append_nil]

/-- A chain from a new entry, with a new exit behind it, is a part. -/
theorem Chain.part : Part b (b₁.newState.addSilent last b₁.size) ⟨b.size, b₁.size⟩ language
    (new ∪ .single last none b₁.size) where
  grows := by
    have hsize := h.grows.size_le
    have hlast := h.last_eq
    have hlt : last < b₁.newState.size := by
      rw [Builder.size_newState] at hsize hlast ⊢
      omega
    have hgrows := (((Builder.grows_newState b).trans h.grows).trans
      (Builder.grows_newState b₁)).trans (Builder.grows_addSilent hlt b₁.size)
    rwa [Edges.empty_union, Edges.union_empty] at hgrows
  bounds := by
    have hsize := h.grows.size_le
    rw [Builder.size_newState] at hsize
    refine ⟨rfl, ?_, ?_⟩
    · show b.size ≤ b₁.size
      omega
    · show b₁.size < (b₁.newState.addSilent last b₁.size).size
      rw [Builder.size_addSilent, Builder.size_newState]
      omega
  inside := by
    have hsize := h.grows.size_le
    have hlast := h.last_eq
    rw [Builder.size_newState] at hsize hlast
    rw [Builder.size_addSilent, Builder.size_newState]
    rintro i l j (hij | ⟨rfl, -, rfl⟩)
    · have hin := h.inside_own hij
      omega
    · omega
  trail_iff w := by
    constructor
    · intro hp
      have hsize := h.grows.size_le
      rw [Builder.size_newState] at hsize
      have hstart : LeadsOut b b₁ language new b.size [] := .inl ⟨hsize, .stay _⟩
      rcases hp.describes (fun i l j u w => h.leadsOut_step) hstart with ⟨hlt, -⟩ | ⟨-, hw⟩
      · exact absurd hlt (Nat.lt_irrefl _)
      · exact hw
    · intro hw
      have hchain : Trail (new ∪ Edges.single last none b₁.size) b.size w last :=
        ((h.trail_iff w).2 hw).mono fun _ _ _ h => .inl h
      have hout := hchain.snoc (.inr ⟨rfl, rfl, rfl⟩) (u := []) rfl
      rwa [List.append_nil] at hout

end Sequences

/-! ## Alternatives -/

section Alternatives

variable {b b₁ b' : Builder σ α} {new₁ new₂ : Edges σ} {ends outer : Ends}
  {first rest : List σ → Prop}

theorem Branches.nil (b : Builder σ α) (houter : outer.entry ≠ outer.exit) :
    Branches b b outer (fun _ => False) ∅ where
  grows := ⟨Nat.le_refl _, (or_iff_left id).symm, fun _ => rfl⟩
  inside h := h.elim
  trail_iff w := by
    refine iff_false_intro fun hp => ?_
    exact houter (hp.eq_of_no_edge fun _ _ => id).1

/-- The edges of a part, of the branches after it, and those between the part and the ends. -/
def Branches.edges (outer ends : Ends) (new₁ new₂ : Edges σ) : Edges σ :=
  new₁ ∪ Edges.single outer.entry none ends.entry ∪ Edges.single ends.exit none outer.exit ∪ new₂

/-- The words that lead to the states of a part and of the branches after it. -/
def Branches.Leads (b b₁ : Builder σ α) (outer ends : Ends) (first rest : List σ → Prop)
    (new₁ new₂ : Edges σ) (i : Nat) (w : List σ) : Prop :=
  (i = outer.entry ∧ w = []) ∨
  ((b.size ≤ i ∧ i < b₁.size) ∧ Trail new₁ ends.entry w i) ∨
  (b₁.size ≤ i ∧ Trail new₂ outer.entry w i) ∨
  (i = outer.exit ∧ (first w ∨ rest w))

variable (hentry : outer.entry < b.size) (hexit : outer.exit < b.size)
  (houter : outer.entry ≠ outer.exit) (h₁ : Part b b₁ ends first new₁)
  (h₂ : Branches ((b₁.addSilent outer.entry ends.entry).addSilent ends.exit outer.exit) b' outer
    rest new₂)
include hentry hexit houter h₁ h₂

theorem Branches.leads_step {i j : Nat} {l : Option (RangeSet σ)} {u w : List σ}
    (h : Branches.edges outer ends new₁ new₂ i l j) (hu : Reads l u)
    (hi : Branches.Leads b b₁ outer ends first rest new₁ new₂ i w) :
    Branches.Leads b b₁ outer ends first rest new₁ new₂ j (w ++ u) := by
  have hbounds := h₁.bounds
  rcases h with ((h | ⟨rfl, rfl, rfl⟩) | ⟨rfl, rfl, rfl⟩) | h
  · have hin := h₁.inside h
    rcases hi with ⟨rfl, -⟩ | ⟨-, hi⟩ | ⟨hi, -⟩ | ⟨rfl, -⟩
    · omega
    · exact .inr (.inl ⟨hin.2, hi.snoc h hu⟩)
    · omega
    · omega
  · cases hu
    rcases hi with ⟨-, rfl⟩ | ⟨hi, -⟩ | ⟨hi, -⟩ | ⟨hi, -⟩
    · exact .inr (.inl ⟨by omega, .stay _⟩)
    · omega
    · omega
    · exact absurd hi houter
  · cases hu
    rw [List.append_nil]
    rcases hi with ⟨hi, -⟩ | ⟨-, hi⟩ | ⟨hi, -⟩ | ⟨hi, -⟩
    · omega
    · exact .inr (.inr (.inr ⟨rfl, .inl ((h₁.trail_iff w).1 hi)⟩))
    · omega
    · omega
  · have hin := h₂.inside h
    simp only [Builder.size_addSilent] at hin
    have htrail : Trail new₂ outer.entry (w ++ u) j := by
      rcases hi with ⟨rfl, rfl⟩ | ⟨hi, -⟩ | ⟨-, hi⟩ | ⟨rfl, -⟩
      · exact .ofEdge h hu
      · omega
      · exact hi.snoc h hu
      · omega
    rcases hin.2 with rfl | hj
    · exact .inr (.inr (.inr ⟨rfl, .inr ((h₂.trail_iff _).1 htrail)⟩))
    · exact .inr (.inr (.inl ⟨hj.1, htrail⟩))

theorem Branches.cons : Branches b b' outer (fun w => first w ∨ rest w)
    (Branches.edges outer ends new₁ new₂) where
  grows := by
    have hbounds := h₁.bounds
    have hin := Builder.grows_addSilent (b := b₁) (by omega : outer.entry < b₁.size) ends.entry
    have hout := Builder.grows_addSilent (b := b₁.addSilent outer.entry ends.entry)
      (by rw [Builder.size_addSilent]; exact hbounds.2.2) outer.exit
    exact ((h₁.grows.trans hin).trans hout).trans h₂.grows
  inside := by
    have hbounds := h₁.bounds
    have hsize := h₂.grows.size_le
    simp only [Builder.size_addSilent] at hsize
    rintro i l j (((h | ⟨rfl, -, rfl⟩) | ⟨rfl, -, rfl⟩) | h)
    · have hin := h₁.inside h
      omega
    · omega
    · omega
    · have hin := h₂.inside h
      simp only [Builder.size_addSilent] at hin
      omega
  trail_iff w := by
    constructor
    · intro hp
      have hbounds := h₁.bounds
      have hstart : Branches.Leads b b₁ outer ends first rest new₁ new₂ outer.entry [] :=
        .inl ⟨rfl, rfl⟩
      rcases hp.describes (fun i l j u w => Branches.leads_step hentry hexit houter h₁ h₂)
        hstart with ⟨h, -⟩ | ⟨hi, -⟩ | ⟨hi, -⟩ | ⟨-, hw⟩
      · exact absurd h.symm houter
      · omega
      · omega
      · exact hw
    · rintro (hw | hw)
      · have hfirst : Trail (Branches.edges outer ends new₁ new₂) ends.entry w ends.exit :=
          ((h₁.trail_iff w).2 hw).mono fun _ _ _ h => .inl (.inl (.inl h))
        have hout := hfirst.snoc (.inl (.inr ⟨rfl, rfl, rfl⟩)) (u := []) rfl
        rw [List.append_nil] at hout
        exact .silent (.inl (.inl (.inr ⟨rfl, rfl, rfl⟩))) hout
      · exact ((h₂.trail_iff w).2 hw).mono fun _ _ _ h => .inr h

end Alternatives

/-- Branches between a new entry and a new exit are a part. -/
theorem Branches.part {b b' : Builder σ α} {language : List σ → Prop} {new : Edges σ}
    (h : Branches b.newState.newState b' ⟨b.size, b.size + 1⟩ language new) :
    Part b b' ⟨b.size, b.size + 1⟩ language new where
  grows := by
    have hgrows := ((Builder.grows_newState b).trans
      (Builder.grows_newState b.newState)).trans h.grows
    rwa [Edges.union_empty, Edges.empty_union] at hgrows
  bounds := by
    have hsize := h.grows.size_le
    rw [Builder.size_newState, Builder.size_newState] at hsize
    refine ⟨rfl, ?_, ?_⟩
    · show b.size ≤ b.size + 1
      omega
    · show b.size + 1 < b'.size
      omega
  inside hij := by
    have hsize := h.grows.size_le
    have hin := h.inside hij
    simp only [Builder.size_newState] at hsize hin
    omega
  trail_iff := h.trail_iff

/-! ## Repetitions -/

section Repetitions

variable {b b₁ : Builder σ α} {inner : Ends} {body : Fragment σ} {optional repeating : Bool}
  {new : Edges σ}

/-- The edge that the flag asks for. -/
def Builder.addFlagged (b : Builder σ α) (flag : Bool) (source target : Nat) : Builder σ α :=
  if flag then b.addSilent source target else b

/-- The silent edge that is there if the flag is set. -/
def Edges.flagged (flag : Bool) (source target : Nat) : Edges σ :=
  fun i l j => flag = true ∧ Edges.single source none target i l j

theorem grows_flagged {source : Nat} (hsource : source < b.size) (flag : Bool) (target : Nat) :
    Grows b (b.addFlagged flag source target) (.flagged flag source target) := by
  cases flag with
  | false => exact ⟨Nat.le_refl _, by simp [Edges.flagged, Builder.addFlagged], fun _ => rfl⟩
  | true =>
    have h := Builder.grows_addSilent hsource target
    refine ⟨h.size_le, ?_, h.code_eq⟩
    intro i l j
    rw [Builder.addFlagged, if_pos rfl, h.edge_iff]
    simp [Edges.flagged]

@[simp] theorem size_addFlagged (b : Builder σ α) (flag : Bool) (i j : Nat) :
    (b.addFlagged flag i j).size = b.size := by
  cases flag with
  | false => rfl
  | true => exact Builder.size_addSilent b i j

/-- The edges of the body, and those between its ends and the ends of the repetition. -/
def turnEdges (entry exit : Nat) (inner : Ends) (optional repeating : Bool) (new : Edges σ) :
    Edges σ :=
  new ∪ Edges.single entry none inner.entry ∪ Edges.single inner.exit none exit ∪
    Edges.flagged optional entry exit ∪ Edges.flagged repeating exit entry

/-- The words after which the next turn may begin. -/
def Turned (body : Fragment σ) (optional repeating : Bool) (w : List σ) : Prop :=
  w = [] ∨ (repeating = true ∧ (Fragment.optRep body optional repeating).Matches w)

/-- The words that lead to the states of a repetition. -/
def TurnLeads (entry exit : Nat) (inner : Ends) (body : Fragment σ) (optional repeating : Bool)
    (new : Edges σ) (i : Nat) (w : List σ) : Prop :=
  (i = entry ∧ Turned body optional repeating w) ∨
  ((entry < i ∧ i < exit) ∧
    ∃ u v, w = u ++ v ∧ Turned body optional repeating u ∧ Trail new inner.entry v i) ∨
  (i = exit ∧ (Fragment.optRep body optional repeating).Matches w)

theorem Turned.turn {u v : List σ} (hu : Turned body optional repeating u)
    (hv : body.Matches v) : (Fragment.optRep body optional repeating).Matches (u ++ v) := by
  rcases hu with rfl | ⟨rfl, hu⟩
  · exact .once hv
  · exact hu.snoc hv

theorem turnLeads_step (h : Part b.newState b₁ inner body.Matches new) {i j : Nat}
    {l : Option (RangeSet σ)} {u w : List σ}
    (hij : turnEdges b.size b₁.size inner optional repeating new i l j) (hu : Reads l u)
    (hi : TurnLeads b.size b₁.size inner body optional repeating new i w) :
    TurnLeads b.size b₁.size inner body optional repeating new j (w ++ u) := by
  have hbounds := h.bounds
  rw [Builder.size_newState] at hbounds
  rcases hij with (((hij | ⟨rfl, rfl, rfl⟩) | ⟨rfl, rfl, rfl⟩) | ⟨hopt, rfl, rfl, rfl⟩) |
    ⟨hrep, rfl, rfl, rfl⟩
  · have hin := h.inside hij
    rw [Builder.size_newState] at hin
    rcases hi with ⟨rfl, -⟩ | ⟨-, x, v, rfl, hx, hv⟩ | ⟨rfl, -⟩
    · omega
    · exact .inr (.inl ⟨hin.2, x, v ++ u, List.append_assoc .., hx, hv.snoc hij hu⟩)
    · omega
  · cases hu
    rcases hi with ⟨-, hw⟩ | ⟨hi, -⟩ | ⟨hi, -⟩
    · exact .inr (.inl ⟨by omega, w, [], rfl, hw, .stay _⟩)
    · omega
    · omega
  · cases hu
    rw [List.append_nil]
    rcases hi with ⟨hi, -⟩ | ⟨-, x, v, rfl, hx, hv⟩ | ⟨hi, -⟩
    · omega
    · exact .inr (.inr ⟨rfl, hx.turn ((h.trail_iff v).1 hv)⟩)
    · omega
  · cases hu
    rw [List.append_nil]
    rcases hi with ⟨-, rfl | ⟨-, hw⟩⟩ | ⟨hi, -⟩ | ⟨hi, -⟩
    · exact .inr (.inr ⟨rfl, hopt ▸ .skip⟩)
    · exact .inr (.inr ⟨rfl, hw⟩)
    · omega
    · omega
  · cases hu
    rw [List.append_nil]
    rcases hi with ⟨hi, -⟩ | ⟨hi, -⟩ | ⟨-, hw⟩
    · omega
    · omega
    · exact .inl ⟨rfl, .inr ⟨hrep, hw⟩⟩

/-- A repetition is taken turn by turn. -/
theorem trail_of_turns {edge : Edges σ} {entry exit : Nat} {w : List σ}
    (hbody : ∀ u, body.Matches u → Trail edge entry u exit)
    (hskip : optional = true → Trail edge entry [] exit)
    (hback : repeating = true → Trail edge exit [] entry)
    (hw : (Fragment.optRep body optional repeating).Matches w) : Trail edge entry w exit := by
  generalize hf : Fragment.optRep body optional repeating = f at hw
  induction hw with
  | skip =>
    cases hf
    exact hskip rfl
  | once hu =>
    cases hf
    exact hbody _ hu
  | again hu _ _ ih =>
    cases hf
    have hback' : Trail edge exit [] entry := hback rfl
    exact (hbody _ hu).append (hback'.append (ih rfl))
  | _ => cases hf

/-- The builder of a repetition, before the edges for its flags. -/
def Builder.turn (b₁ : Builder σ α) (entry exit : Nat) (inner : Ends) : Builder σ α :=
  (b₁.newState.addSilent entry inner.entry).addSilent inner.exit exit

/-- The states of a repetition around its body. -/
theorem grows_turn (h : Part b.newState b₁ inner body.Matches new) :
    Grows b (((b₁.turn b.size b₁.size inner).addFlagged optional b.size b₁.size).addFlagged
      repeating b₁.size b.size) (turnEdges b.size b₁.size inner optional repeating new) := by
  have hbounds := h.bounds
  rw [Builder.size_newState] at hbounds
  have hentry : ∀ {b₂ : Builder σ α}, b₂.size = b₁.size + 1 → b.size < b₂.size := by
    intro b₂ h₂
    omega
  have hin := Builder.grows_addSilent (b := b₁.newState) (hentry (by simp)) inner.entry
  have hout := Builder.grows_addSilent (b := b₁.newState.addSilent b.size inner.entry)
    (by rw [Builder.size_addSilent, Builder.size_newState]; omega : inner.exit < _) b₁.size
  have hopt := grows_flagged (b := b₁.turn b.size b₁.size inner)
    (hentry (by simp [Builder.turn])) optional b₁.size
  have hrep := grows_flagged
    (b := (b₁.turn b.size b₁.size inner).addFlagged optional b.size b₁.size)
    (by simp [Builder.turn] : b₁.size < _) repeating b.size
  have hbody := ((Builder.grows_newState b).trans h.grows).trans (Builder.grows_newState b₁)
  rw [Edges.empty_union, Edges.union_empty] at hbody
  exact (((hbody.trans hin).trans hout).trans hopt).trans hrep

theorem Part.turns (h : Part b.newState b₁ inner body.Matches new) :
    Part b (((b₁.turn b.size b₁.size inner).addFlagged optional b.size b₁.size).addFlagged
        repeating b₁.size b.size) ⟨b.size, b₁.size⟩
      (Fragment.optRep body optional repeating).Matches
      (turnEdges b.size b₁.size inner optional repeating new) := by
  have hbounds := h.bounds
  rw [Builder.size_newState] at hbounds
  refine ⟨grows_turn h, ?_, ?_, ?_⟩
  · simp [Builder.turn]
    omega
  · rintro i l j ((((hij | ⟨rfl, -, rfl⟩) | ⟨rfl, -, rfl⟩) | ⟨-, rfl, -, rfl⟩) | ⟨-, rfl, -, rfl⟩)
    · have hin := h.inside hij
      simp [Builder.turn] at hin ⊢
      omega
    all_goals
      simp [Builder.turn]
      omega
  · intro w
    constructor
    · intro hp
      have hstart : TurnLeads b.size b₁.size inner body optional repeating new b.size [] :=
        .inl ⟨rfl, .inl rfl⟩
      rcases hp.describes (fun i l j u w => turnLeads_step h) hstart with
        ⟨hi, -⟩ | ⟨hi, -⟩ | ⟨-, hw⟩
      · simp at hi
        omega
      · simp at hi
      · exact hw
    · refine trail_of_turns ?_ ?_ ?_
      · intro u hu
        have hbody : Trail (turnEdges b.size b₁.size inner optional repeating new) inner.entry u
            inner.exit := ((h.trail_iff u).2 hu).mono fun _ _ _ h => .inl (.inl (.inl (.inl h)))
        have hout := hbody.snoc (.inl (.inl (.inr ⟨rfl, rfl, rfl⟩))) (u := []) rfl
        rw [List.append_nil] at hout
        exact .silent (.inl (.inl (.inl (.inr ⟨rfl, rfl, rfl⟩)))) hout
      · intro hopt
        exact .silent (.inl (.inr ⟨hopt, rfl, rfl, rfl⟩)) (.stay _)
      · intro hrep
        exact .silent (.inr ⟨hrep, rfl, rfl, rfl⟩) (.stay _)

end Repetitions

/-! ## Fragments -/

theorem part_nothing (b : Builder σ α) :
    Part b b.newState.newState ⟨b.size, b.size + 1⟩ (Fragment.nothing : Fragment σ).Matches ∅ where
  grows := by
    have hgrows := (Builder.grows_newState b).trans (Builder.grows_newState b.newState)
    rwa [Edges.union_empty] at hgrows
  bounds := by simp
  inside h := h.elim
  trail_iff w := by
    refine iff_of_false ?_ Fragment.not_matches_nothing
    intro hp
    have := (hp.eq_of_no_edge fun _ _ => id).1
    simp at this

/-- A part with an entry and an exit, and perhaps an edge between them. -/
theorem part_of_edge {b b' : Builder σ α} {language : List σ → Prop} {new : Edges σ}
    (hsize : b'.size = b.size + 2) (hgrows : Grows b.newState.newState b' new)
    (hends : ∀ {i l j}, new i l j → i = b.size ∧ j = b.size + 1)
    (hlanguage : ∀ w, language w ↔ ∃ l, new b.size l (b.size + 1) ∧ Reads l w) :
    Part b b' ⟨b.size, b.size + 1⟩ language new where
  grows := by
    have hall := ((Builder.grows_newState b).trans (Builder.grows_newState b.newState)).trans hgrows
    rwa [Edges.union_empty, Edges.empty_union] at hall
  bounds := by
    show b.size = b.size ∧ b.size ≤ b.size + 1 ∧ b.size + 1 < b'.size
    omega
  inside h := by
    obtain ⟨rfl, rfl⟩ := hends h
    omega
  trail_iff w := by
    rw [hlanguage]
    constructor
    · intro hp
      rcases hp.cases_first with ⟨h, -⟩ | ⟨l, j, u, v, he, hu, rfl, hrest⟩
      · simp at h
      · obtain ⟨-, rfl⟩ := hends he
        rcases hrest.cases_first with ⟨-, rfl⟩ | ⟨l', j', -, -, he', -⟩
        · rw [List.append_nil]
          exact ⟨l, he, hu⟩
        · have := (hends he').1
          omega
    · rintro ⟨l, hl, hw⟩
      exact .ofEdge hl hw

theorem part_emptyString (b : Builder σ α) :
    Part b (b.newState.newState.addSilent b.size (b.size + 1)) ⟨b.size, b.size + 1⟩
      (Fragment.emptyString : Fragment σ).Matches (.single b.size none (b.size + 1)) := by
  have hlt : b.size < b.newState.newState.size := by
    rw [Builder.size_newState, Builder.size_newState]
    omega
  refine part_of_edge (by simp) (Builder.grows_addSilent hlt _) ?_ ?_
  · rintro i l j ⟨rfl, -, rfl⟩
    exact ⟨rfl, rfl⟩
  · intro w
    rw [Fragment.matches_emptyString]
    constructor
    · intro hw
      exact ⟨none, ⟨rfl, rfl, rfl⟩, hw⟩
    · rintro ⟨l, ⟨-, rfl, -⟩, hw⟩
      exact hw

theorem part_oneOf (b : Builder σ α) (set : RangeSet σ) :
    ∃ new, Part b (b.newState.newState.addTransition b.size set (b.size + 1))
      ⟨b.size, b.size + 1⟩ (Fragment.oneOf set).Matches new := by
  have hlt : b.size < b.newState.newState.size := by
    rw [Builder.size_newState, Builder.size_newState]
    omega
  obtain ⟨new, hgrows, hnew⟩ := Builder.grows_addTransition hlt set (b.size + 1)
  refine ⟨new, part_of_edge (by simp) hgrows ?_ ?_⟩
  · intro i l j hij
    obtain ⟨-, rfl, -, rfl⟩ := (hnew i l j).1 hij
    exact ⟨rfl, rfl⟩
  · intro w
    rw [Fragment.matches_oneOf]
    constructor
    · rintro ⟨x, hx, rfl⟩
      exact ⟨some set, (hnew _ _ _).2 ⟨⟨x, hx⟩, rfl, rfl, rfl⟩, x, hx, rfl⟩
    · rintro ⟨l, hl, hw⟩
      obtain ⟨-, -, rfl, -⟩ := (hnew _ _ _).1 hl
      exact hw

mutual

/-- What is built for a fragment reads its words. -/
theorem build_part (b : Builder σ α) :
    (f : Fragment σ) → ∃ new, Part b (f.build b).1 (f.build b).2 f.Matches new
  | .nothing => ⟨_, part_nothing b⟩
  | .emptyString => ⟨_, part_emptyString b⟩
  | .oneOf set => part_oneOf b set
  | .sequence items => by
    have hlast : b.size < b.newState.size := by simp
    obtain ⟨new, hchain⟩ := buildChain_chain b.newState b.size hlast items
    exact ⟨_, hchain.part⟩
  | .alternative items => by
    obtain ⟨new, hbranches⟩ := buildBranches_branches b.newState.newState ⟨b.size, b.size + 1⟩
      (by simp only [Builder.size_newState]; omega) (by simp) (by simp) items
    exact ⟨new, hbranches.part⟩
  | .optRep body optional repeating => by
    obtain ⟨new, hbody⟩ := build_part b.newState body
    exact ⟨_, hbody.turns⟩

theorem buildChain_chain (b : Builder σ α) (last : Nat) (hlast : last < b.size) :
    (items : List (Fragment σ)) → ∃ new, Chain b (Fragment.buildChain b last items).1 last
      (Fragment.buildChain b last items).2 (Fragment.sequence items).Matches new
  | [] => by
    have heq : (Fragment.sequence ([] : List (Fragment σ))).Matches = (· = []) :=
      funext fun w => propext Fragment.matches_sequence_nil
    rw [heq]
    exact ⟨_, Chain.nil b last⟩
  | item :: items => by
    have heq : (Fragment.sequence (item :: items)).Matches =
        fun w => ∃ u v, w = u ++ v ∧ item.Matches u ∧ (Fragment.sequence items).Matches v :=
      funext fun w => propext Fragment.matches_sequence_cons
    obtain ⟨new₁, h₁⟩ := build_part b item
    have hexit : (item.build b).2.exit <
        ((item.build b).1.addSilent last (item.build b).2.entry).size := by
      rw [Builder.size_addSilent]
      exact h₁.bounds.2.2
    obtain ⟨new₂, h₂⟩ := buildChain_chain _ _ hexit items
    rw [heq]
    exact ⟨_, Chain.cons hlast h₁ h₂⟩

theorem buildBranches_branches (b : Builder σ α) (outer : Ends) (hentry : outer.entry < b.size)
    (hexit : outer.exit < b.size) (houter : outer.entry ≠ outer.exit) :
    (items : List (Fragment σ)) → ∃ new, Branches b (Fragment.buildBranches b outer items) outer
      (Fragment.alternative items).Matches new
  | [] => by
    have heq : (Fragment.alternative ([] : List (Fragment σ))).Matches = fun _ => False :=
      funext fun w => propext (by simp [Fragment.matches_alternative])
    rw [heq]
    exact ⟨_, Branches.nil b houter⟩
  | item :: items => by
    have heq : (Fragment.alternative (item :: items)).Matches =
        fun w => item.Matches w ∨ (Fragment.alternative items).Matches w :=
      funext fun w => propext (by simp [Fragment.matches_alternative])
    obtain ⟨new₁, h₁⟩ := build_part b item
    have hbounds := h₁.bounds
    have hsize : b.size ≤ (((item.build b).1.addSilent outer.entry
        (item.build b).2.entry).addSilent (item.build b).2.exit outer.exit).size := by
      simp only [Builder.size_addSilent]
      omega
    obtain ⟨new₂, h₂⟩ := buildBranches_branches _ outer (Nat.lt_of_lt_of_le hentry hsize)
      (Nat.lt_of_lt_of_le hexit hsize) houter items
    rw [heq]
    exact ⟨_, Branches.cons hentry hexit houter h₁ h₂⟩

end

end Nfa

end Munch
