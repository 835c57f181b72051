-- SUMMARY: What trees of parsed patterns look like, and why their digits always have values.
import Munch.Compile
import Munch.Proofs.Pattern.Characters
import Munch.Proofs.Pattern.Offset

/-! # Normal forms of patterns

The grammar makes trees of a certain form only. Besides being flat, their
alternatives, unions and intersections are pairs, every repetition has a flag,
the endpoints of a range differ, and letters are those of their level. Digits
of escapes are therefore digits, and evaluation finds no other. -/

namespace Munch

open Pattern (Level IsHexDigit)

/-! ## Normal trees -/

/-- A letter of a class: printable and not special, escapable, or written by its digits. -/
def ClassChar.IsLetter : ClassChar → Prop
  | single c => ' ' ≤ c ∧ c ∉ Level.inner.special.toList
  | escape c => c ∈ Level.inner.escapable.toList
  | hex digits => digits ≠ [] ∧ ∀ d ∈ digits, IsHexDigit d
  | offset _ _ => False

/-- A letter, or one that is shifted once and not by nothing. -/
def ClassChar.Normal : ClassChar → Prop
  | offset distance item => distance ≠ 0 ∧ item.IsLetter
  | c => c.IsLetter

theorem ClassChar.IsLetter.normal {c : ClassChar} (h : c.IsLetter) : c.Normal := by
  cases c with
  | offset distance item => cases h
  | _ => exact h

mutual

/-- Ranges have different endpoints, unions and intersections are pairs. -/
def CharClass.Normal : CharClass → Prop
  | .between start stop => start ≠ stop ∧ start.Normal ∧ stop.Normal
  | .greaterEqual start => start.Normal
  | .lessEqual stop => stop.Normal
  | .only c => c.Normal
  | .complement set => set.Normal
  | .union sets => sets.length = 2 ∧ CharClass.AllNormal sets
  | .intersection sets => sets.length = 2 ∧ CharClass.AllNormal sets

def CharClass.AllNormal : List CharClass → Prop
  | [] => True
  | set :: sets => set.Normal ∧ CharClass.AllNormal sets

end

namespace Pattern

mutual

/-- Alternatives are pairs, and repetitions have a flag. Sequences are as `Flat` says. -/
def Regular : Pattern → Prop
  | .emptyString => True
  | .single c => ' ' ≤ c ∧ c ∉ Level.outer.special.toList
  | .escape c => c ∈ Level.outer.escapable.toList
  | .hex digits => digits ≠ [] ∧ ∀ d ∈ digits, IsHexDigit d
  | .oneOf set => set.Normal
  | .sequence items => AllRegular items
  | .alternative items => items.length = 2 ∧ AllRegular items
  | .optRep body optional repeating => (optional || repeating) = true ∧ body.Regular

def AllRegular : List Pattern → Prop
  | [] => True
  | p :: ps => p.Regular ∧ AllRegular ps

end

/-- The form of the trees that the parser makes. -/
structure Normal (p : Pattern) : Prop where
  flat : p.Flat
  regular : p.Regular

/-! ## Trees of derivations -/

theorem allRegular_iff {ps : List Pattern} : AllRegular ps ↔ ∀ p ∈ ps, p.Regular := by
  induction ps with
  | nil => simp [AllRegular]
  | cons p ps ih => simp [AllRegular, ih]

theorem Regular.factors {p : Pattern} (h : p.Regular) : ∀ q ∈ p.factors, q.Regular := by
  intro q hq
  cases p with
  | emptyString => cases hq
  | sequence items => exact allRegular_iff.1 h q hq
  | _ =>
    cases List.mem_singleton.1 hq
    exact h

theorem regular_ofFactors {ps : List Pattern} (h : ∀ p ∈ ps, p.Regular) :
    (ofFactors ps).Regular := by
  match ps with
  | [] => trivial
  | [p] => exact h p List.mem_cons_self
  | p :: q :: ps => exact allRegular_iff.2 h

theorem regular_concat {ps : List Pattern} (h : ∀ p ∈ ps, p.Regular) : (concat ps).Regular := by
  refine regular_ofFactors fun q hq => ?_
  obtain ⟨p, hp, hq⟩ := List.mem_flatMap.1 hq
  exact (h p hp).factors q hq

def Nonterminal.RegularValue : (n : Nonterminal) → n.Value → Prop
  | .regex | .sequence | .quantified | .atom => Regular
  | .set | .meet | .factor | .setAtom => CharClass.Normal
  | .setChar => ClassChar.Normal
  | .setLiteral => ClassChar.IsLetter

mutual

/-- Operands of a pair are trees of the same symbol, so the pairs that are nested to the left are
made of regular trees. -/
theorem Derivation.regular : {n : Nonterminal} → (d : Derivation n) → n.RegularValue d.value
  | _, .regex first more =>
    List.foldlRecOn more.values _ (regular first) fun _ ha b hb =>
      ⟨rfl, ha, regular_values more b hb, trivial⟩
  | _, .sequence items => regular_concat (regular_values items)
  | _, .quantified atom none => regular atom
  | _, .quantified atom (some .optional) => ⟨rfl, regular atom⟩
  | _, .quantified atom (some .repeated) => ⟨rfl, regular atom⟩
  | _, .quantified atom (some .any) => ⟨rfl, regular atom⟩
  | _, .letter (.literal _ printable plain) => ⟨printable, plain⟩
  | _, .letter (.escape _ escapable) => escapable
  | _, .letter (.hex _ nonempty hexadecimal) => ⟨nonempty, hexadecimal⟩
  | _, .oneOf s => regular s
  | _, .group r => regular r
  | _, .set first more =>
    List.foldlRecOn more.values _ (regular first) fun _ ha b hb =>
      ⟨rfl, ha, regular_values more b hb, trivial⟩
  | _, .meet first more =>
    List.foldlRecOn more.values _ (regular first) fun _ ha b hb =>
      ⟨rfl, ha, regular_values more b hb, trivial⟩
  | _, .complement atom => regular atom
  | _, .factor atom => regular atom
  | _, .only c => regular c
  | _, .atLeast start => regular start
  | _, .between start stop => by
    rw [value]
    by_cases heq : start.value = stop.value
    · rw [if_pos heq]
      exact regular start
    · rw [if_neg heq]
      exact ⟨heq, regular start, regular stop⟩
  | _, .atMost stop => regular stop
  | _, .setGroup s => regular s
  | _, .setChar left c right => by
    have hc : c.value.IsLetter := regular c
    rw [value]
    by_cases heq : right = left
    · rw [if_pos heq]
      exact hc.normal
    · rw [if_neg heq]
      exact ⟨by omega, hc⟩
  | _, .setLiteral (.literal _ printable plain) => ⟨printable, plain⟩
  | _, .setLiteral (.escape _ escapable) => escapable
  | _, .setLiteral (.hex _ nonempty hexadecimal) => ⟨nonempty, hexadecimal⟩

theorem Derivation.regular_values :
    {n : Nonterminal} → (ds : Derivations n) → ∀ v ∈ ds.values, n.RegularValue v
  | _, .nil => nofun
  | _, .cons first more => List.forall_mem_cons.2 ⟨regular first, regular_values more⟩

end

theorem normal_of_parse {text : String} (h : text.length < 2147483648) {p : Pattern}
    (hp : parse text = .ok p) : p.Normal := by
  obtain ⟨t, -, rfl⟩ := exists_written h hp
  exact ⟨t.flat, t.regular⟩

end Pattern

/-! ## Digits -/

namespace ClassChar

/-- Digits are the characters that have a value as one. -/
theorem isHexDigit_iff {c : Char} : IsHexDigit c ↔ ∃ digit, digitValue? c = some digit := by
  simp only [IsHexDigit, ← hexDigit?_eq, hexDigit?, Bool.and_eq_true, decide_eq_true_eq]
  split_ifs with hdigit hlower hupper
  · exact iff_of_true (.inl hdigit) ⟨_, rfl⟩
  · exact iff_of_true (.inr (.inr hlower)) ⟨_, rfl⟩
  · exact iff_of_true (.inr (.inl hupper)) ⟨_, rfl⟩
  · refine iff_of_false ?_ (by simp)
    rintro (h | h | h)
    · exact hdigit h
    · exact hupper h
    · exact hlower h

/-- No digit of the character, or of one that it shifts, is found to be none. -/
def Readable (c : ClassChar) : Prop := ∀ d, c.eval ≠ .error (.hexDigit d)

theorem hexValue_ne_error {digits : List Char} {value : Nat} (h : ∀ d ∈ digits, IsHexDigit d)
    (e : PatternError) : hexValue value digits ≠ .error e := by
  induction digits generalizing value with
  | nil => nofun
  | cons c rest ih =>
    obtain ⟨hc, hrest⟩ := List.forall_mem_cons.1 h
    obtain ⟨digit, hdigit⟩ := isHexDigit_iff.1 hc
    rw [hexValue, hexDigit?_eq, hdigit]
    exact ih hrest

theorem ofCodePoint_ne_hexDigit (value : Int) (d : Char) :
    ofCodePoint value ≠ .error (.hexDigit d) := by
  rw [ofCodePoint]
  by_cases h : 0 ≤ value ∧ value.toNat.isValidChar
  · rw [dif_pos h]
    rintro ⟨⟩
  · rw [dif_neg h]
    rintro ⟨⟩

theorem ofHex_ne_hexDigit {digits : List Char} (h : ∀ d ∈ digits, IsHexDigit d) (d : Char) :
    ofHex digits ≠ .error (.hexDigit d) := by
  rw [ofHex]
  cases hvalue : hexValue 0 digits with
  | error e => exact absurd hvalue (hexValue_ne_error h e)
  | ok value => exact ofCodePoint_ne_hexDigit value d

theorem IsLetter.readable {c : ClassChar} (h : c.IsLetter) : c.Readable := by
  cases c with
  | single c => nofun
  | escape c => nofun
  | hex digits => exact ofHex_ne_hexDigit h.2
  | offset distance item => cases h

theorem Readable.offset {item : ClassChar} (h : item.Readable) (distance : Int) :
    (offset distance item).Readable := by
  intro d
  rw [eval]
  cases hitem : item.eval with
  | error e =>
    rintro ⟨⟩
    exact h d hitem
  | ok c => exact ofCodePoint_ne_hexDigit _ d

theorem IsLetter.characters {c : ClassChar} (h : c.IsLetter) : c.characters = [c] := by
  cases c with
  | offset distance item => cases h
  | _ => rfl

theorem Normal.readable {c : ClassChar} (h : c.Normal) : ∀ b ∈ c.characters, b.Readable := by
  cases c with
  | offset distance item =>
    obtain ⟨-, hitem⟩ := h
    rw [ClassChar.characters, hitem.characters]
    exact List.forall_mem_cons.2 ⟨hitem.readable,
      List.forall_mem_singleton.2 (hitem.readable.offset distance)⟩
  | _ => exact List.forall_mem_singleton.2 (IsLetter.readable h)

end ClassChar

mutual

theorem CharClass.Normal.readable : (set : CharClass) → set.Normal → ∀ c ∈ set.characters, c.Readable
  | .between _ _, h => List.forall_mem_append.2 ⟨h.2.1.readable, h.2.2.readable⟩
  | .greaterEqual start, h => ClassChar.Normal.readable (c := start) h
  | .lessEqual stop, h => ClassChar.Normal.readable (c := stop) h
  | .only c, h => ClassChar.Normal.readable (c := c) h
  | .complement set, h => CharClass.Normal.readable set h
  | .union sets, h => CharClass.AllNormal.readable sets h.2
  | .intersection sets, h => CharClass.AllNormal.readable sets h.2

theorem CharClass.AllNormal.readable : (sets : List CharClass) → CharClass.AllNormal sets →
    ∀ c ∈ CharClass.charactersOfEach sets, c.Readable
  | [], _ => nofun
  | set :: sets, h => List.forall_mem_append.2
    ⟨CharClass.Normal.readable set h.1, CharClass.AllNormal.readable sets h.2⟩

end

namespace Pattern

mutual

theorem Regular.readable : (p : Pattern) → p.Regular → ∀ c ∈ p.characters, c.Readable
  | .emptyString, _ => nofun
  | .single _, _ => List.forall_mem_singleton.2 nofun
  | .escape _, _ => List.forall_mem_singleton.2 nofun
  | .hex _, h => List.forall_mem_singleton.2 (ClassChar.ofHex_ne_hexDigit h.2)
  | .oneOf set, h => CharClass.Normal.readable set h
  | .sequence items, h => AllRegular.readable items h
  | .alternative items, h => AllRegular.readable items h.2
  | .optRep body _ _, h => Regular.readable body h.2

theorem AllRegular.readable : (items : List Pattern) → AllRegular items →
    ∀ c ∈ charactersOfEach items, c.Readable
  | [], _ => nofun
  | item :: items, h =>
    List.forall_mem_append.2 ⟨Regular.readable item h.1, AllRegular.readable items h.2⟩

end

theorem Normal.toFragment_ne_hexDigit {p : Pattern} (h : p.Normal) (d : Char) :
    p.toFragment ≠ .error (.hexDigit d) := by
  intro herror
  obtain ⟨before, c, after, hcharacters, -, hc⟩ := toFragment_eq_error.1 herror
  have hmem : c ∈ p.characters := by
    rw [hcharacters]
    exact List.mem_append_right before List.mem_cons_self
  exact Regular.readable p h.regular c hmem d hc

/-- A parsed tree has no wrong digit, and a text that cannot be parsed has another error. -/
theorem fragment_ne_hexDigit {text : String} (h : text.length < 2147483648) (d : Char) :
    parse text >>= toFragment ≠ .error (.hexDigit d) := by
  intro herror
  rcases Checked.bind_eq_error herror with hparse | ⟨p, hp, hp'⟩
  · rcases parse_cases h with ⟨t, -, hok⟩ | ⟨offset, -, hmalformed⟩
    · cases hparse.symm.trans hok
    · cases hparse.symm.trans hmalformed
  · exact (normal_of_parse h hp).toFragment_ne_hexDigit d hp'

end Pattern

/-! ## Compilation -/

section Compile

variable {α : Type} {rules : List (Rule α)}

theorem exists_rule_of_error {e : PatternError} (h : labelledFragments rules = .error e) :
    ∃ rule ∈ rules, rule.fragment = .error e := by
  obtain ⟨rule, hrule, he⟩ := Checked.exists_of_mapM_eq_error h
  rcases Checked.bind_eq_error he with hfragment | ⟨f, -, hf⟩
  · exact ⟨rule, hrule, hfragment⟩
  · cases hf

/-- Errors in patterns come from the fragments of rules. -/
theorem labelledFragments_eq_error [Ord α] [DecidableEq α] {config : Config} {e : PatternError}
    (h : compile config rules = .error (.pattern e)) : labelledFragments rules = .error e := by
  rw [compile] at h
  rcases Checked.bind_eq_error h with hentries | ⟨entries, -, h⟩
  · obtain ⟨e', he', ⟨⟩⟩ := Checked.mapError_eq_error hentries
    exact he'
  rcases Checked.bind_eq_error h with hdfa | ⟨d, -, h⟩
  · obtain ⟨fault, -, ⟨⟩⟩ := Checked.mapError_eq_error hdfa
  · split at h
    · obtain ⟨fault, -, ⟨⟩⟩ := Checked.mapError_eq_error h
    · cases h

end Compile

/-- Trees of parsed patterns are normal. So neither their evaluation nor a compilation finds a wrong
digit in an escape. -/
theorem Pattern.parse_normal :
    (∀ (text : String) (p : Pattern), text.length < 2147483648 → parse text = .ok p →
      p.Normal ∧ ∀ d, p.toFragment ≠ .error (.hexDigit d)) ∧
    ∀ {α : Type} [Ord α] [DecidableEq α] (config : Config) (rules : List (Rule α)),
      (∀ text code, Rule.regex text code ∈ rules → text.length < 2147483648) →
      ∀ d, compile config rules ≠ .error (.pattern (.hexDigit d)) := by
  refine ⟨fun text p h hp => ?_, fun config rules h d herror => ?_⟩
  · have hnormal := normal_of_parse h hp
    exact ⟨hnormal, hnormal.toFragment_ne_hexDigit⟩
  · obtain ⟨rule, hrule, hfragment⟩ := exists_rule_of_error (labelledFragments_eq_error herror)
    cases rule with
    | literal text code => cases hfragment
    | regex text code => exact fragment_ne_hexDigit (h text code hrule) d hfragment

theorem Pattern.parse_normal_escapes : "\\x1F;a+|[~(b-c>&\\-)]".length < 2147483648 ∧
    (∃ p, parse "\\x1F;a+|[~(b-c>&\\-)]" = .ok p ∧ p.Normal ∧
      ∀ d, p.toFragment ≠ .error (.hexDigit d)) ∧
    ∀ d, compile ⟨true, .highestCode⟩ [.regex "\\x1F;a+|[~(b-c>&\\-)]" 1, .literal "d" 0] ≠
      .error (.pattern (.hexDigit d)) := by
  have hlength : "\\x1F;a+|[~(b-c>&\\-)]".length < 2147483648 := by decide
  have hread : (fun _ => ()) <$> parse "\\x1F;a+|[~(b-c>&\\-)]" = .ok () := by decide +kernel
  obtain ⟨p, hp, -⟩ := Checked.map_eq_ok hread
  refine ⟨hlength, ⟨p, hp, parse_normal.1 _ p hlength hp⟩, parse_normal.2 _ _ ?_⟩
  intro text code hmem
  simp only [List.mem_cons, Rule.regex.injEq, reduceCtorEq, List.not_mem_nil, or_false] at hmem
  rw [hmem.1]
  exact hlength

end Munch
