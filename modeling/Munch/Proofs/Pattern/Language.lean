-- SUMMARY: The language of a pattern tree, and the fragment that matches it.
import Munch.Proofs.Checked
import Munch.Proofs.Fragment
import Munch.Proofs.Pattern.Letters
import Mathlib.Computability.Language

/-! # Languages of patterns

The language of a tree is put together from those of its parts by the usual
operations. A class is a set of characters, made by the operations on sets. The
fragment that a tree evaluates to matches exactly the words of its language. -/

namespace Munch

open Computability

/-! ## Characters -/

namespace ClassChar

/-- The number that hexadecimal digits write, if they are digits. -/
def hexNumber? (digits : List Char) : Option Nat :=
  digits.foldlM (fun value c => (digitValue? c).map (value * 16 + ·)) 0

/-- The character that an item stands for. -/
inductive Denotes : ClassChar → Char → Prop where
  | single (c : Char) : Denotes (single c) c
  | escape {letter c : Char} : escapedCode letter = c.toNat → Denotes (escape letter) c
  | hex {digits : List Char} {c : Char} : hexNumber? digits = some c.toNat → Denotes (hex digits) c
  | offset {distance : Int} {item : ClassChar} {b c : Char} :
      Denotes item b → (c.toNat : Int) = b.toNat + distance → Denotes (offset distance item) c

theorem ofCodePoint_eq_ok {value : Int} {c : Char} :
    ofCodePoint value = .ok c ↔ (c.toNat : Int) = value := by
  rw [ofCodePoint]
  constructor
  · intro h
    by_cases hvalid : 0 ≤ value ∧ value.toNat.isValidChar
    · rw [dif_pos hvalid] at h
      cases h
      show ((Char.ofNatAux value.toNat hvalid.2).toNat : Int) = value
      have : (Char.ofNatAux value.toNat hvalid.2).toNat = value.toNat := rfl
      omega
    · rw [dif_neg hvalid] at h
      cases h
  · rintro rfl
    have hvalid : 0 ≤ (c.toNat : Int) ∧ (c.toNat : Int).toNat.isValidChar := ⟨by omega, c.valid⟩
    rw [dif_pos hvalid]
    congr 1

/-- Digits are read up to the cap. -/
theorem hexValue_eq_ok {digits : List Char} {value result number : Nat}
    (hvalue : value = min number valueCap) : hexValue value digits = .ok result ↔
      ∃ n, digits.foldlM (fun value c => (digitValue? c).map (value * 16 + ·)) number = some n ∧
        min n valueCap = result := by
  induction digits generalizing value number with
  | nil =>
    rw [hexValue, hvalue]
    constructor
    · rintro ⟨⟩
      exact ⟨number, rfl, rfl⟩
    · rintro ⟨n, ⟨⟩, rfl⟩
      rfl
  | cons c rest ih =>
    rw [hexValue, List.foldlM_cons, hexDigit?_eq]
    cases digitValue? c with
    | none => exact iff_of_false (by rintro ⟨⟩) (by rintro ⟨n, ⟨⟩, -⟩)
    | some digit =>
      have hnext : appendDigit value digit = min (number * 16 + digit) valueCap := by
        rw [appendDigit, hvalue]
        omega
      exact ih hnext

/-- No character reaches the cap. -/
theorem ofHex_eq_ok {digits : List Char} {c : Char} :
    ofHex digits = .ok c ↔ hexNumber? digits = some c.toNat := by
  have hlt := Symbol.char_gap c
  have hread : ∀ value, hexValue 0 digits = .ok value ↔
      ∃ n, hexNumber? digits = some n ∧ min n valueCap = value :=
    fun value => hexValue_eq_ok rfl
  rw [ofHex]
  constructor
  · intro h
    cases hvalue : hexValue 0 digits with
    | error e => rw [hvalue] at h; cases h
    | ok value =>
      rw [hvalue] at h
      obtain ⟨n, hn, hmin⟩ := (hread value).1 hvalue
      have hc : (c.toNat : Int) = value := ofCodePoint_eq_ok.1 h
      rw [valueCap] at hmin
      rw [hn]
      congr 1
      omega
  · intro h
    have hcap : min c.toNat valueCap = c.toNat := by
      rw [valueCap]
      omega
    rw [(hread c.toNat).2 ⟨_, h, hcap⟩]
    exact ofCodePoint_eq_ok.2 rfl

/-- Evaluation finds the character that an item stands for. -/
theorem eval_eq_ok {item : ClassChar} {c : Char} : item.eval = .ok c ↔ item.Denotes c := by
  induction item generalizing c with
  | single d =>
    constructor
    · rintro ⟨⟩
      exact .single d
    · rintro ⟨⟩
      rfl
  | escape letter =>
    constructor
    · rintro ⟨⟩
      exact .escape (toNat_unescape letter).symm
    · rintro (_ | h)
      rw [← toNat_unescape, Char.toNat_inj] at h
      exact congrArg Except.ok h
  | hex digits =>
    rw [eval, ofHex_eq_ok]
    constructor
    · exact .hex
    · rintro (_ | _ | h)
      exact h
  | offset distance item ih =>
    rw [eval]
    cases hitem : item.eval with
    | error e =>
      refine iff_of_false (by rintro ⟨⟩) ?_
      rintro (_ | _ | _ | ⟨hb, -⟩)
      cases hitem.symm.trans (ih.2 hb)
    | ok b =>
      show ofCodePoint (b.toNat + distance) = .ok c ↔ _
      rw [ofCodePoint_eq_ok]
      constructor
      · exact .offset (ih.1 hitem)
      · rintro (_ | _ | _ | ⟨hb, hc⟩)
        cases hitem.symm.trans (ih.2 hb)
        exact hc

/-- A character that an item evaluates to is the only one it stands for. -/
theorem denotes_iff {item : ClassChar} {b c : Char} (h : item.eval = .ok c) :
    item.Denotes b ↔ b = c := by
  rw [← eval_eq_ok, h]
  exact ⟨fun heq => (Except.ok.inj heq).symm, fun heq => congrArg Except.ok heq.symm⟩

end ClassChar

/-! ## Classes -/

mutual

/-- The characters in a class. -/
def CharClass.chars : CharClass → Set Char
  | .between start stop =>
    {x | ∃ a b, start.Denotes a ∧ stop.Denotes b ∧ (a ≤ x ∧ x ≤ b ∨ b ≤ x ∧ x ≤ a)}
  | .greaterEqual start => {x | ∃ a, start.Denotes a ∧ a ≤ x}
  | .lessEqual stop => {x | ∃ b, stop.Denotes b ∧ x ≤ b}
  | .only c => {x | c.Denotes x}
  | .complement set => set.charsᶜ
  | .union sets => {x | ∃ chars ∈ CharClass.charsOfEach sets, x ∈ chars}
  | .intersection sets => {x | ∀ chars ∈ CharClass.charsOfEach sets, x ∈ chars}

def CharClass.charsOfEach : List CharClass → List (Set Char)
  | [] => []
  | set :: sets => set.chars :: CharClass.charsOfEach sets

end

namespace RangeSet

theorem mem_between {a b x : Char} : x ∈ between a b ↔ a ≤ x ∧ x ≤ b ∨ b ≤ x ∧ x ≤ a := by
  rw [between]
  split
  case isTrue hab =>
    rw [mem_range, Symbol.rank_le_rank, Symbol.rank_le_rank]
    constructor
    · exact .inl
    · rintro (h | ⟨hb, ha⟩)
      · exact h
      · exact ⟨Char.le_trans hab hb, Char.le_trans ha hab⟩
  case isFalse hab =>
    have hba : b ≤ a := (Char.le_total a b).resolve_left hab
    rw [mem_range, Symbol.rank_le_rank, Symbol.rank_le_rank]
    constructor
    · exact .inr
    · rintro (⟨ha, hb⟩ | h)
      · exact absurd (Char.le_trans ha hb) hab
      · exact h

end RangeSet

namespace CharClass

mutual

/-- The set that a class evaluates to holds the characters of the class. -/
theorem mem_of_eval {x : Char} :
    (set : CharClass) → {s : RangeSet Char} → set.eval = .ok s → (x ∈ s ↔ x ∈ set.chars)
  | .between start stop, s, h => by
    rw [eval] at h
    obtain ⟨a, ha, h⟩ := Checked.bind_eq_ok h
    obtain ⟨b, hb, h⟩ := Checked.bind_eq_ok h
    cases h
    simp [chars, RangeSet.mem_between, ClassChar.denotes_iff ha, ClassChar.denotes_iff hb]
  | .greaterEqual start, s, h => by
    rw [eval] at h
    obtain ⟨a, ha, rfl⟩ := Checked.map_eq_ok h
    simp [chars, Symbol.rank_le_rank, ClassChar.denotes_iff ha]
  | .lessEqual stop, s, h => by
    rw [eval] at h
    obtain ⟨b, hb, rfl⟩ := Checked.map_eq_ok h
    simp [chars, Symbol.rank_le_rank, ClassChar.denotes_iff hb]
  | .only c, s, h => by
    rw [eval] at h
    obtain ⟨a, ha, rfl⟩ := Checked.map_eq_ok h
    simp [chars, ClassChar.denotes_iff ha]
  | .complement set, s, h => by
    rw [eval] at h
    obtain ⟨t, ht, rfl⟩ := Checked.map_eq_ok h
    rw [RangeSet.mem_complement, mem_of_eval set ht, chars]
    rfl
  | .union sets, s, h => by
    rw [eval] at h
    obtain ⟨ts, hts, rfl⟩ := Checked.map_eq_ok h
    rw [RangeSet.mem_unionAll, chars]
    exact (mem_of_evalAll sets hts).1
  | .intersection sets, s, h => by
    rw [eval] at h
    obtain ⟨ts, hts, rfl⟩ := Checked.map_eq_ok h
    rw [RangeSet.mem_intersectionAll, chars]
    exact (mem_of_evalAll sets hts).2

theorem mem_of_evalAll {x : Char} :
    (sets : List CharClass) → {ss : List (RangeSet Char)} → evalAll sets = .ok ss →
      ((∃ s ∈ ss, x ∈ s) ↔ ∃ chars ∈ charsOfEach sets, x ∈ chars) ∧
        ((∀ s ∈ ss, x ∈ s) ↔ ∀ chars ∈ charsOfEach sets, x ∈ chars)
  | [], ss, h => by
    cases h
    simp [charsOfEach]
  | set :: sets, ss, h => by
    rw [evalAll] at h
    obtain ⟨t, ht, h⟩ := Checked.bind_eq_ok h
    obtain ⟨ts, hts, h⟩ := Checked.bind_eq_ok h
    cases h
    have hset := mem_of_eval (x := x) set ht
    obtain ⟨hany, hall⟩ := mem_of_evalAll (x := x) sets hts
    rw [charsOfEach, List.exists_mem_cons_iff, List.exists_mem_cons_iff, List.forall_mem_cons,
      List.forall_mem_cons, hset, hany, hall]
    exact ⟨Iff.rfl, Iff.rfl⟩

end

end CharClass

/-! ## Trees -/

mutual

/-- The words of a tree. -/
def Pattern.language : Pattern → Language Char
  | .emptyString => 1
  | .single c => {[c]}
  | .escape letter => {w | ∃ c, (ClassChar.escape letter).Denotes c ∧ w = [c]}
  | .hex digits => {w | ∃ c, (ClassChar.hex digits).Denotes c ∧ w = [c]}
  | .oneOf set => {w | ∃ c ∈ set.chars, w = [c]}
  | .sequence items => (Pattern.languageOfEach items).prod
  | .alternative items => (Pattern.languageOfEach items).sum
  | .optRep body optional repeating =>
    (if optional then 1 else 0) +
      (if repeating then body.language * body.language∗ else body.language)

def Pattern.languageOfEach : List Pattern → List (Language Char)
  | [] => []
  | item :: items => item.language :: Pattern.languageOfEach items

end

namespace Fragment

variable {σ : Type} [Symbol σ] {body : Fragment σ} {optional repeating : Bool} {w : List σ}

theorem matches_turns {u : List σ} {words : List (List σ)} (hu : body.Matches u)
    (hwords : ∀ word ∈ words, body.Matches word) :
    Matches (optRep body optional true) (u ++ words.flatten) := by
  induction words generalizing u with
  | nil =>
    rw [List.flatten_nil, List.append_nil]
    exact .once hu
  | cons word words ih =>
    obtain ⟨hword, hrest⟩ := List.forall_mem_cons.1 hwords
    exact .again hu (ih hword hrest)

/-- The turns of a repetition are one word of the body or more. -/
theorem matches_repeating {l : Language σ} (hbody : ∀ w, body.Matches w ↔ w ∈ l) :
    Matches (optRep body optional true) w ↔ (optional = true ∧ w = []) ∨ w ∈ l * l∗ := by
  constructor
  · intro h
    generalize hf : optRep body optional true = f at h
    induction h with
    | skip =>
      cases hf
      exact .inl ⟨rfl, rfl⟩
    | once hw =>
      cases hf
      refine .inr (Language.mem_mul.2 ⟨_, (hbody _).1 hw, [], Language.nil_mem_kstar l, ?_⟩)
      exact List.append_nil _
    | @again _ _ u v hu _ _ ih =>
      cases hf
      refine .inr (Language.mem_mul.2 ⟨u, (hbody u).1 hu, v, ?_, rfl⟩)
      rcases ih rfl with ⟨-, rfl⟩ | hv
      · exact Language.nil_mem_kstar l
      · exact (mul_kstar_le_kstar : l * l∗ ≤ l∗) hv
    | _ => cases hf
  · rintro (⟨rfl, rfl⟩ | hw)
    · exact .skip
    · obtain ⟨u, hu, v, hv, rfl⟩ := Language.mem_mul.1 hw
      obtain ⟨words, rfl, hwords⟩ := Language.mem_kstar.1 hv
      exact matches_turns ((hbody u).2 hu) fun word hword => (hbody word).2 (hwords word hword)

end Fragment

namespace Pattern

variable {w : List Char}

/-- A repetition has the words of one turn, or of many, and perhaps the empty word. -/
theorem matches_optRep {body : Fragment Char} {l : Language Char} {optional repeating : Bool}
    (hbody : ∀ w, body.Matches w ↔ w ∈ l) :
    (Fragment.optRep body optional repeating).Matches w ↔
      w ∈ (if optional then 1 else 0 : Language Char) + (if repeating then l * l∗ else l) := by
  rw [Language.mem_add]
  have hopt : w ∈ (if optional then 1 else 0 : Language Char) ↔ optional = true ∧ w = [] := by
    cases optional with
    | true => simp [Language.mem_one]
    | false => simp [Language.notMem_zero]
  rw [hopt]
  cases repeating with
  | true => exact Fragment.matches_repeating hbody
  | false =>
    rw [if_neg Bool.false_ne_true, ← hbody]
    constructor
    · intro h
      cases h with
      | skip => exact .inl ⟨rfl, rfl⟩
      | once hw => exact .inr hw
    · rintro (⟨rfl, rfl⟩ | hw)
      · exact .skip
      · exact .once hw

theorem matches_only {item : ClassChar} {c : Char} (h : item.eval = .ok c) :
    (Fragment.oneOf (.only c)).Matches w ↔ ∃ b, item.Denotes b ∧ w = [b] := by
  simp only [Fragment.matches_oneOf, RangeSet.mem_only, ClassChar.denotes_iff h]

mutual

/-- The fragment that a tree evaluates to matches the words of the tree. -/
theorem matches_toFragment {w : List Char} :
    (p : Pattern) → {f : Fragment Char} → p.toFragment = .ok f → (f.Matches w ↔ w ∈ p.language)
  | .emptyString, f, h => by
    cases h
    exact Fragment.matches_emptyString
  | .single c, f, h => by
    cases h
    simp only [Fragment.matches_oneOf, RangeSet.mem_only, exists_eq_left]
    exact Set.mem_singleton_iff.symm
  | .escape letter, f, h => by
    have heval : (ClassChar.escape letter).eval = .ok (ClassChar.unescape letter) := rfl
    cases h
    exact matches_only heval
  | .hex digits, f, h => by
    rw [toFragment] at h
    obtain ⟨c, hc, rfl⟩ := Checked.map_eq_ok h
    have heval : (ClassChar.hex digits).eval = .ok c := hc
    exact matches_only heval
  | .oneOf set, f, h => by
    rw [toFragment] at h
    obtain ⟨s, hs, rfl⟩ := Checked.map_eq_ok h
    rw [Fragment.matches_oneOf, language]
    simp only [CharClass.mem_of_eval set hs]
    rfl
  | .sequence items, f, h => by
    rw [toFragment] at h
    obtain ⟨fs, hfs, rfl⟩ := Checked.map_eq_ok h
    rw [Fragment.matches_concat, language]
    exact (matches_toFragments items hfs).1
  | .alternative items, f, h => by
    rw [toFragment] at h
    obtain ⟨fs, hfs, rfl⟩ := Checked.map_eq_ok h
    rw [Fragment.matches_choice, language]
    exact (matches_toFragments items hfs).2
  | .optRep body optional repeating, f, h => by
    rw [toFragment] at h
    obtain ⟨g, hg, rfl⟩ := Checked.map_eq_ok h
    rw [Fragment.matches_repeated, language]
    exact matches_optRep fun w => matches_toFragment body hg

theorem matches_toFragments {w : List Char} :
    (items : List Pattern) → {fs : List (Fragment Char)} → toFragments items = .ok fs →
      ((Fragment.sequence fs).Matches w ↔ w ∈ (languageOfEach items).prod) ∧
        ((Fragment.alternative fs).Matches w ↔ w ∈ (languageOfEach items).sum)
  | [], fs, h => by
    cases h
    exact ⟨Fragment.matches_sequence_nil, by
      simp [Fragment.matches_alternative, languageOfEach, Language.notMem_zero]⟩
  | item :: items, fs, h => by
    rw [toFragments] at h
    obtain ⟨f, hf, h⟩ := Checked.bind_eq_ok h
    obtain ⟨fs, hfs, h⟩ := Checked.bind_eq_ok h
    cases h
    constructor
    · rw [Fragment.matches_sequence_cons, languageOfEach, List.prod_cons, Language.mem_mul]
      constructor
      · rintro ⟨u, v, rfl, hu, hv⟩
        exact ⟨u, (matches_toFragment item hf).1 hu, v, (matches_toFragments items hfs).1.1 hv, rfl⟩
      · rintro ⟨u, hu, v, hv, rfl⟩
        exact ⟨u, v, rfl, (matches_toFragment item hf).2 hu, (matches_toFragments items hfs).1.2 hv⟩
    · rw [languageOfEach, List.sum_cons, Language.mem_add, ← matches_toFragment item hf,
        ← (matches_toFragments items hfs).2]
      simp [Fragment.matches_alternative]

end

end Pattern

end Munch
