-- SUMMARY: What derivations begin with, what may come after them, and what their trees look like.
import Munch.Pattern.Derivation
import Munch.Proofs.Pattern.Language

/-! # Derivations

The grammar can be read from the front with one character in view: the special
characters that a symbol may begin with are none of those that may come after
what stands before it. The tree of a concatenation has no concatenation and no
empty string among its items, so that it can be built item by item. -/

namespace Munch

/-! ## Alphabets -/

namespace Pattern

theorem Level.mem_literals {level : Level} {c : Char} :
    c ∈ level.literals ↔ ' ' ≤ c ∧ c ∉ level.special.toList := by
  rw [literals, RangeSet.mem_sdiff, RangeSet.mem_greaterEqual, Symbol.rank_le_rank,
    RangeSet.mem_anyOf]

theorem Level.mem_escapes {level : Level} {c : Char} :
    c ∈ level.escapes ↔ c ∈ level.escapable.toList :=
  RangeSet.mem_anyOf

theorem mem_hexDigits {c : Char} : c ∈ hexDigits ↔ IsHexDigit c := by
  simp only [hexDigits, IsHexDigit, RangeSet.mem_union, RangeSet.mem_range, Symbol.rank_le_rank,
    or_assoc]

/-! ## Items of a repetition -/

namespace Derivations

variable {n : Nonterminal} {mark : List Char}

def ofList : List (Derivation n) → Derivations n
  | [] => .nil
  | d :: ds => .cons d (ofList ds)

def toList : Derivations n → List (Derivation n)
  | .nil => []
  | .cons d ds => d :: ds.toList

@[simp] theorem toList_ofList (ds : List (Derivation n)) : (ofList ds).toList = ds := by
  induction ds with
  | nil => rfl
  | cons d ds ih => rw [ofList, toList, ih]

@[simp] theorem written_ofList (ds : List (Derivation n)) :
    (ofList ds).written mark = ds.flatMap fun d => mark ++ d.written := by
  induction ds with
  | nil => rfl
  | cons d ds ih => rw [ofList, written, ih, List.flatMap_cons]

@[simp] theorem values_ofList (ds : List (Derivation n)) :
    (ofList ds).values = ds.map Derivation.value := by
  induction ds with
  | nil => rfl
  | cons d ds ih => rw [ofList, values, ih, List.map_cons]

end Derivations

/-! ## The first character -/

namespace Nonterminal

/-- Inside of a class other characters are special. -/
def level : Nonterminal → Level
  | .regex | .sequence | .quantified | .atom => .outer
  | .set | .meet | .factor | .setAtom | .setChar | .setLiteral => .inner

def nullable : Nonterminal → Bool
  | .regex | .sequence => true
  | _ => false

/-- The special characters that a text of the symbol may begin with. -/
def openings : Nonterminal → List Char
  | .regex | .sequence | .quantified | .atom => ['\\', '[', '(']
  | .set | .meet | .factor => ['\\', '<', '-', '(', '~']
  | .setAtom => ['\\', '<', '-', '(']
  | .setChar => ['\\', '<']
  | .setLiteral => ['\\']

def Opens (n : Nonterminal) (c : Char) : Prop := c ∈ n.level.special.toList → c ∈ n.openings

instance (n : Nonterminal) (c : Char) : Decidable (n.Opens c) := inferInstanceAs (Decidable (_ → _))

end Nonterminal

theorem Letter.head {level : Level} (l : Letter level) :
    ∃ c w, l.written = c :: w ∧ (c ∈ level.special.toList → c = '\\') := by
  cases l with
  | literal c _ plain => exact ⟨c, [], rfl, fun h => absurd h plain⟩
  | escape c _ => exact ⟨'\\', [c], rfl, fun _ => rfl⟩
  | hex digits _ _ => exact ⟨'\\', _, rfl, fun _ => rfl⟩

/-- What a symbol other than `regex` and `sequence` derives is not empty. -/
theorem Derivation.head : {n : Nonterminal} → (d : Derivation n) → n.nullable = false →
    ∃ c w, d.written = c :: w ∧ n.Opens c
  | _, .quantified atom quantifier, _ => by
    obtain ⟨c, w, hw, hc⟩ := head atom rfl
    exact ⟨c, _, by rw [written, hw]; rfl, hc⟩
  | _, .letter l, _ => by
    obtain ⟨c, w, hw, hc⟩ := l.head
    exact ⟨c, w, hw, fun hspecial => by rw [hc hspecial]; decide⟩
  | _, .oneOf s, _ => ⟨'[', _, rfl, fun _ => by decide⟩
  | _, .group r, _ => ⟨'(', _, rfl, fun _ => by decide⟩
  | _, .set first more, _ => by
    obtain ⟨c, w, hw, hc⟩ := head first rfl
    exact ⟨c, _, by rw [written, hw]; rfl, hc⟩
  | _, .meet first more, _ => by
    obtain ⟨c, w, hw, hc⟩ := head first rfl
    exact ⟨c, _, by rw [written, hw]; rfl, hc⟩
  | _, .complement atom, _ => ⟨'~', _, rfl, fun _ => by decide⟩
  | _, .factor atom, _ => by
    obtain ⟨c, w, hw, hc⟩ := head atom rfl
    exact ⟨c, w, hw, fun hspecial => List.mem_append_left ['~'] (hc hspecial)⟩
  | _, .only c, _ => by
    obtain ⟨x, w, hw, hx⟩ := head c rfl
    exact ⟨x, w, hw, fun hspecial => List.mem_append_left ['-', '('] (hx hspecial)⟩
  | _, .atLeast start, _ => by
    obtain ⟨x, w, hw, hx⟩ := head start rfl
    exact ⟨x, _, by rw [written, hw]; rfl,
      fun hspecial => List.mem_append_left ['-', '('] (hx hspecial)⟩
  | _, .between start stop, _ => by
    obtain ⟨x, w, hw, hx⟩ := head start rfl
    exact ⟨x, _, by rw [written, hw]; rfl,
      fun hspecial => List.mem_append_left ['-', '('] (hx hspecial)⟩
  | _, .atMost stop, _ => ⟨'-', _, rfl, fun _ => by decide⟩
  | _, .setGroup s, _ => ⟨'(', _, rfl, fun _ => by decide⟩
  | _, .setChar 0 c right, _ => by
    obtain ⟨x, w, hw, hx⟩ := head c rfl
    exact ⟨x, _, by rw [written, hw]; rfl, fun hspecial => List.mem_append_left ['<'] (hx hspecial)⟩
  | _, .setChar (left + 1) c right, _ => ⟨'<', _, rfl, fun _ => by decide⟩
  | _, .setLiteral l, _ => by
    obtain ⟨c, w, hw, hc⟩ := l.head
    exact ⟨c, w, hw, fun hspecial => by rw [hc hspecial]; decide⟩

theorem Derivation.opens {n : Nonterminal} (t : Derivation n) (hn : n.nullable = false)
    {c : Char} {v w : List Char} (h : t.written ++ v = c :: w) : n.Opens c := by
  obtain ⟨x, u, hu, hx⟩ := t.head hn
  rw [hu] at h
  exact (List.cons.inj h).1 ▸ hx

/-! ## The next character -/

namespace Nonterminal

/-- Whether the character may come after a text of the symbol. -/
def Precedes : Nonterminal → Char → Prop
  | .regex, c => c ∈ [')']
  | .sequence, c => c ∈ ['|', ')']
  | .quantified, c => c ∉ ['?', '+', '*']
  | .set, c => c ∈ [']', ')']
  | .meet, c => c ∈ ['|', ']', ')']
  | .factor, c | .setAtom, c => c ∈ ['&', '|', ']', ')']
  | .setChar, c => c ≠ '>'
  | .atom, _ | .setLiteral, _ => True

instance : (n : Nonterminal) → (c : Char) → Decidable (n.Precedes c)
  | .regex, _ | .sequence, _ | .set, _ | .meet, _ | .factor, _ | .setAtom, _ =>
    inferInstanceAs (Decidable (_ ∈ _))
  | .quantified, _ => inferInstanceAs (Decidable (_ ∉ _))
  | .setChar, _ => inferInstanceAs (Decidable (_ ≠ _))
  | .atom, _ | .setLiteral, _ => inferInstanceAs (Decidable True)

/-- The symbol may stand before the text. -/
def Before (n : Nonterminal) (rest : List Char) : Prop := ∀ c ∈ rest.head?, n.Precedes c

/-- What comes after a sequence does not begin another item of it. -/
theorem not_opens_quantified {c : Char} (h : sequence.Precedes c) : ¬ quantified.Opens c := by
  simp only [Precedes, List.mem_cons, List.not_mem_nil, or_false] at h
  rcases h with rfl | rfl <;> decide

/-- What comes after an atom of a class does not begin a character of it. -/
theorem not_opens_setChar {c : Char} (h : setAtom.Precedes c) : ¬ setChar.Opens c := by
  simp only [Precedes, List.mem_cons, List.not_mem_nil, or_false] at h
  rcases h with rfl | rfl | rfl | rfl <;> decide

theorem before_nil {n : Nonterminal} : n.Before [] := by
  rintro _ ⟨⟩

theorem before_cons {n : Nonterminal} {c : Char} {rest : List Char} (h : n.Precedes c) :
    n.Before (c :: rest) := by
  rintro _ ⟨⟩
  exact h

end Nonterminal

/-- Where a repetition of `m` in `outer` goes on and where it stops can be seen from the next
character: a further item, behind the mark, begins with one that `outer` does not precede. -/
structure Repeats (m : Nonterminal) (mark : List Char) (outer : Nonterminal) : Prop where
  last : ∀ c, outer.Precedes c → m.Precedes c
  next : ∀ (t : Derivation m) (w : List Char), m.Before (mark ++ (t.written ++ w))
  stop : ∀ (t : Derivation m) (w : List Char), ¬ outer.Before (mark ++ (t.written ++ w))

theorem Repeats.before {m outer : Nonterminal} {mark : List Char} (h : Repeats m mark outer)
    (ts : Derivations m) {rest : List Char} (hrest : outer.Before rest) :
    m.Before (ts.written mark ++ rest) := by
  cases ts with
  | nil => exact fun c hc => h.last c (hrest c hc)
  | cons t ts =>
    rw [Derivations.written, List.append_assoc, List.append_assoc]
    exact h.next t _

/-- An empty turn would end the repetition, but the next item can be seen to begin. -/
theorem Repeats.length_pos {m outer : Nonterminal} {mark : List Char} (h : Repeats m mark outer)
    (t : Derivation m) : 0 < (mark ++ t.written).length := by
  refine List.length_pos_iff.2 fun hnil => h.stop t [] ?_
  rw [← List.append_assoc, hnil]
  nofun

theorem repeats_mark {m outer : Nonterminal} {mark : Char}
    (last : ∀ c, outer.Precedes c → m.Precedes c) (next : m.Precedes mark)
    (stop : ¬ outer.Precedes mark) : Repeats m [mark] outer where
  last := last
  next _ _ := Nonterminal.before_cons next
  stop _ _ h := stop (h mark rfl)

theorem repeats_regex : Repeats .sequence ['|'] .regex :=
  repeats_mark (by simp [Nonterminal.Precedes]) (by decide) (by decide)

theorem repeats_set : Repeats .meet ['|'] .set :=
  repeats_mark (by simp +contextual [Nonterminal.Precedes]) (by decide) (by decide)

theorem repeats_meet : Repeats .factor ['&'] .meet :=
  repeats_mark (by simp +contextual [Nonterminal.Precedes]) (by decide) (by decide)

theorem repeats_sequence : Repeats .quantified [] .sequence where
  last c hc := by
    simp only [Nonterminal.Precedes, List.mem_cons, List.not_mem_nil, or_false] at hc
    rcases hc with rfl | rfl <;> decide
  next t w := by
    obtain ⟨c, v, hv, hc⟩ := t.head rfl
    rw [hv]
    refine Nonterminal.before_cons fun hmem => ?_
    simp only [List.mem_cons, List.not_mem_nil, or_false] at hmem
    rcases hmem with rfl | rfl | rfl <;> exact absurd hc (by decide)
  stop t w h := by
    obtain ⟨c, v, hv, hc⟩ := t.head rfl
    rw [hv] at h
    exact Nonterminal.not_opens_quantified (h c rfl) hc

/-! ## Flat trees -/

theorem allFlat_iff {ps : List Pattern} : AllFlat ps ↔ ∀ p ∈ ps, p.Flat := by
  induction ps with
  | nil => simp [AllFlat]
  | cons p ps ih => simp [AllFlat, ih]

theorem Flat.factors {p : Pattern} (h : p.Flat) : ∀ q ∈ p.factors, q.IsFactor ∧ q.Flat := by
  intro q hq
  cases p with
  | emptyString => cases hq
  | sequence items =>
    rw [Flat] at h
    exact ⟨h.2.1 q hq, allFlat_iff.1 h.2.2 q hq⟩
  | _ =>
    cases List.mem_singleton.1 hq
    exact ⟨trivial, h⟩

theorem flat_ofFactors {ps : List Pattern} (h : ∀ p ∈ ps, p.IsFactor ∧ p.Flat) :
    (ofFactors ps).Flat := by
  match ps with
  | [] => trivial
  | [p] => exact (h p List.mem_cons_self).2
  | p :: q :: ps =>
    have hall : AllFlat (p :: q :: ps) := allFlat_iff.2 fun p hp => (h p hp).2
    exact ⟨by simp, fun p hp => (h p hp).1, hall⟩

theorem factors_ofFactors {ps : List Pattern} (h : ∀ p ∈ ps, p.IsFactor) :
    (ofFactors ps).factors = ps := by
  match ps with
  | [] => rfl
  | [p] =>
    have hp := h p List.mem_cons_self
    cases p with
    | emptyString => cases hp
    | sequence items => cases hp
    | _ => rfl
  | p :: q :: ps => rfl

/-- Flat trees can be concatenated one by one. -/
theorem foldl_concat {ps : List Pattern} (h : ∀ p ∈ ps, p.Flat) :
    ps.foldl (fun a b => concat [a, b]) .emptyString = concat ps := by
  suffices hacc : ∀ qs : List Pattern, (∀ q ∈ qs, q.IsFactor) →
      ps.foldl (fun a b => concat [a, b]) (ofFactors qs) = ofFactors (qs ++ ps.flatMap factors) from
    hacc [] (by simp)
  induction ps with
  | nil => simp
  | cons p ps ih =>
    obtain ⟨hp, hps⟩ := List.forall_mem_cons.1 h
    intro qs hqs
    have hstep : concat [ofFactors qs, p] = ofFactors (qs ++ p.factors) := by
      simp [concat, factors_ofFactors hqs]
    rw [List.foldl_cons, hstep, ih hps, List.flatMap_cons, List.append_assoc]
    intro q hq
    rcases List.mem_append.1 hq with hq | hq
    · exact hqs q hq
    · exact (hp.factors q hq).1

theorem isFactor_of_mem_flatMap {ps : List Pattern} (h : ∀ p ∈ ps, p.Flat) :
    ∀ q ∈ ps.flatMap factors, q.IsFactor ∧ q.Flat := by
  intro q hq
  obtain ⟨p, hp, hq⟩ := List.mem_flatMap.1 hq
  exact (h p hp).factors q hq

theorem flat_concat {ps : List Pattern} (h : ∀ p ∈ ps, p.Flat) : (concat ps).Flat :=
  flat_ofFactors (isFactor_of_mem_flatMap h)

/-- The values of the symbols outside of classes are flat trees. -/
def Nonterminal.FlatValue : (n : Nonterminal) → n.Value → Prop
  | .regex | .sequence | .quantified | .atom => Flat
  | .set | .meet | .factor | .setAtom | .setChar | .setLiteral => fun _ => True

mutual

theorem Derivation.flat : {n : Nonterminal} → (d : Derivation n) → n.FlatValue d.value
  | _, .regex first more =>
    List.foldlRecOn more.values _ (flat first) fun _ ha b hb => ⟨ha, flat_values more b hb, trivial⟩
  | _, .sequence items => flat_concat (flat_values items)
  | _, .quantified atom none => flat atom
  | _, .quantified atom (some .optional) => flat atom
  | _, .quantified atom (some .repeated) => flat atom
  | _, .quantified atom (some .any) => flat atom
  | _, .letter (.literal _ _ _) => trivial
  | _, .letter (.escape _ _) => trivial
  | _, .letter (.hex _ _ _) => trivial
  | _, .oneOf _ => trivial
  | _, .group r => flat r
  | _, .set _ _ => trivial
  | _, .meet _ _ => trivial
  | _, .complement _ => trivial
  | _, .factor _ => trivial
  | _, .only _ => trivial
  | _, .atLeast _ => trivial
  | _, .between _ _ => trivial
  | _, .atMost _ => trivial
  | _, .setGroup _ => trivial
  | _, .setChar _ _ _ => trivial
  | _, .setLiteral _ => trivial

theorem Derivation.flat_values :
    {n : Nonterminal} → (ds : Derivations n) → ∀ v ∈ ds.values, n.FlatValue v
  | _, .nil => nofun
  | _, .cons first more => List.forall_mem_cons.2 ⟨flat first, flat_values more⟩

end

/-! ## Parts -/

theorem Parts.factors_eq {p : Pattern} {ps : List Pattern} (h : Parts p ps) : p.factors = ps := by
  cases h with
  | none => rfl
  | one hp => exact factors_ofFactors (List.forall_mem_singleton.2 hp)
  | many _ _ => rfl

theorem parts_ofFactors {ps : List Pattern} (h : ∀ p ∈ ps, p.IsFactor) :
    Parts (ofFactors ps) ps := by
  match ps with
  | [] => exact .none
  | [p] => exact .one (h p List.mem_cons_self)
  | p :: q :: ps => exact .many (by simp) h

/-- There is one tree for a list of parts. -/
theorem Parts.eq_ofFactors {p : Pattern} {ps : List Pattern} (h : Parts p ps) :
    p = ofFactors ps := by
  cases h with
  | none => rfl
  | one _ => rfl
  | many hlength _ =>
    match ps, hlength with
    | _ :: _ :: _, _ => rfl

theorem Flat.parts {p : Pattern} (h : p.Flat) : Parts p p.factors := by
  cases p with
  | emptyString => exact .none
  | sequence items =>
    rw [Flat] at h
    exact .many h.1 h.2.1
  | _ => exact .one trivial

/-- What a concatenation denotes has the parts of its items, one after the other. -/
theorem Derivation.value_sequence_iff (items : Derivations .quantified) {p : Pattern} :
    (Derivation.sequence items).value = p ↔
      ∃ parts, List.Forall₂ Parts items.values parts ∧ Parts p parts.flatten := by
  have hflat : ∀ v ∈ items.values, Pattern.Flat v := flat_values items
  constructor
  · rintro rfl
    refine ⟨items.values.map factors, ?_, ?_⟩
    · exact List.forall₂_map_right_iff.2 (List.forall₂_same.2 fun v hv => (hflat v hv).parts)
    · rw [← List.flatMap_def]
      exact parts_ofFactors fun q hq => (isFactor_of_mem_flatMap hflat q hq).1
  · rintro ⟨parts, hparts, hp⟩
    have hfactors : List.Forall₂ (fun v ps => Pattern.factors v = ps) items.values parts :=
      hparts.imp fun _ _ h => h.factors_eq
    have hmap : items.values.map factors = parts := by
      rwa [← List.forall₂_eq_eq_eq, List.forall₂_map_left_iff]
    rw [hp.eq_ofFactors, ← hmap, ← List.flatMap_def]
    rfl

end Pattern

end Munch
