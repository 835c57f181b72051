-- SUMMARY: Texts written by the code points of their characters, as patterns and as rules.
import Munch.Proofs.Pattern.Normal

/-! # Escaped texts

A text can be written as a pattern that has an escape in place of each
character. The tree of such a pattern is a sequence of letters, a single letter
or the empty string, and evaluates to the fragment of the text. So a rule for
the text can be written in either form. Since no shifts are involved, the text
may be of any length. -/

namespace Munch

/-! ## Digits -/

namespace ClassChar

open Pattern (IsHexDigit)

theorem hexNumber?_map_toLower (digits : List Char) :
    hexNumber? (digits.map Char.toLower) = hexNumber? digits := by
  simp only [hexNumber?, List.foldlM_map, digitValue?_toLower]

theorem hexNumber?_zeros (zeros : Nat) (digits : List Char) :
    hexNumber? (.replicate zeros '0' ++ digits) = hexNumber? digits := by
  induction zeros with
  | zero => rfl
  | succ zeros ih => exact ih

theorem toLower_toDigits (n : Nat) :
    (Nat.toDigits 16 n).map Char.toLower = Nat.toDigits 16 n := by
  have hdigit : ∀ d < 16, d.digitChar.toLower = d.digitChar := by decide
  induction n using Nat.strongRecOn with
  | ind n ih =>
    rw [Nat.toDigits_eq_if (by decide)]
    split
    case isTrue hn => rw [List.map_singleton, hdigit n hn]
    case isFalse hn =>
      rw [List.map_append, List.map_singleton, ih _ (by omega),
        hdigit _ (Nat.mod_lt n (by decide))]

theorem hexNumber?_toDigits (n : Nat) : hexNumber? (Nat.toDigits 16 n) = some n := by
  induction n using Nat.strongRecOn with
  | ind n ih =>
    rw [Nat.toDigits_eq_if (by decide)]
    split
    case isTrue hn => simp [hexNumber?, digitValue?_digitChar hn]
    case isFalse hn =>
      have hdiv : hexNumber? (Nat.toDigits 16 (n / 16)) = some (n / 16) := ih _ (by omega)
      rw [hexNumber?] at hdiv ⊢
      rw [List.foldlM_append, hdiv]
      simp [digitValue?_digitChar (Nat.mod_lt n (by decide))]
      omega

theorem isHexDigit_of_foldlM {digits : List Char} {number n : Nat}
    (h : digits.foldlM (fun value c => (digitValue? c).map (value * 16 + ·)) number = some n) :
    ∀ d ∈ digits, IsHexDigit d := by
  induction digits generalizing number with
  | nil => nofun
  | cons c rest ih =>
    rw [List.foldlM_cons] at h
    cases hc : digitValue? c with
    | none => rw [hc] at h; cases h
    | some digit =>
      rw [hc] at h
      exact List.forall_mem_cons.2 ⟨isHexDigit_iff.2 ⟨digit, hc⟩, ih h⟩

/-- The digits write the code point of the character, in either letter case and behind any number of
zeros. -/
def CodedBy (c : Char) (digits : List Char) : Prop :=
  ∃ zeros, digits.map Char.toLower = .replicate zeros '0' ++ Nat.toDigits 16 c.toNat

section CodedBy

variable {c : Char} {digits : List Char}

theorem CodedBy.hexNumber?_eq (h : CodedBy c digits) : hexNumber? digits = some c.toNat := by
  obtain ⟨zeros, h⟩ := h
  rw [← hexNumber?_map_toLower, h, hexNumber?_zeros, hexNumber?_toDigits]

theorem CodedBy.ne_nil (h : CodedBy c digits) : digits ≠ [] := by
  rintro rfl
  obtain ⟨zeros, h⟩ := h
  exact Nat.toDigits_ne_nil (List.append_eq_nil_iff.1 h.symm).2

end CodedBy

end ClassChar

/-! ## Texts of letters -/

namespace Pattern

/-- The tree of a letter outside of classes. -/
def Letter.tree (l : Letter .outer) : Pattern :=
  l.value Pattern.single Pattern.escape Pattern.hex

theorem Letter.factors_tree (l : Letter .outer) : l.tree.factors = [l.tree] := by
  cases l <;> rfl

/-- Letters one after the other. -/
def Derivation.ofLetters (ls : List (Letter .outer)) : Derivation .regex :=
  .regex (.sequence (.ofList (ls.map fun l => .quantified (.letter l) none))) .nil

variable {ls : List (Letter .outer)} {rest : List Char}

theorem written_ofLetters : (Derivation.ofLetters ls).written = ls.flatMap Letter.written := by
  simp [Derivation.ofLetters, Derivation.written, Derivations.written, List.flatMap_map]

theorem value_ofLetters : (Derivation.ofLetters ls).value = ofFactors (ls.map Letter.tree) := by
  show concat (Derivations.ofList (ls.map fun l => .quantified (.letter l) none)).values = _
  rw [Derivations.values_ofList, List.map_map]
  show ofFactors ((ls.map Letter.tree).flatMap factors) = _
  simp only [List.flatMap_map, Letter.factors_tree, ← List.map_eq_flatMap]

theorem accepts_ofLetters (hrest : Nonterminal.regex.Before rest) :
    Accepts (.ofLetters ls) rest := by
  refine accepts_regex (fun w hw => accepts_sequence ?_ hw) nofun hrest
  rw [Derivations.toList_ofList]
  rintro t ht w hw
  obtain ⟨l, -, rfl⟩ := List.mem_map.1 ht
  exact accepts_quantified accepts_letter fun _ => hw

/-- A text of letters is read as their sequence. -/
theorem parse_letters {text : String} (h : text.toList = ls.flatMap Letter.written) :
    parse text = .ok (ofFactors (ls.map Letter.tree)) := by
  rw [← value_ofLetters]
  exact (accepts_ofLetters Nonterminal.before_nil).parse_eq (written_ofLetters.trans h.symm)

theorem toFragment_ofFactors (items : List Pattern) :
    (ofFactors items).toFragment = .concat <$> toFragments items := by
  match items with
  | [] => rfl
  | [item] =>
    simp only [ofFactors, toFragments]
    cases item.toFragment with
    | error e => rfl
    | ok f => rfl
  | _ :: _ :: _ => rfl

end Pattern

/-! ## Escapes -/

/-- The pattern writes each character of the text by its code point. -/
inductive Escapes : List Char → List Char → Prop where
  | nil : Escapes [] []
  | cons {c : Char} {digits text pattern : List Char} :
      ClassChar.CodedBy c digits → Escapes text pattern →
      Escapes (c :: text) ('\\' :: 'x' :: digits ++ ';' :: pattern)

/-- Such a pattern is a text of letters that evaluate to the characters. -/
theorem Escapes.exists_letters {text pattern : List Char} (h : Escapes text pattern) :
    ∃ ls : List (Pattern.Letter .outer), pattern = ls.flatMap Pattern.Letter.written ∧
      Pattern.toFragments (ls.map Pattern.Letter.tree) =
        .ok (text.map fun c => .oneOf (.only c)) := by
  induction h with
  | nil => exact ⟨[], rfl, rfl⟩
  | @cons c digits text pattern hdigits _ ih =>
    obtain ⟨ls, rfl, hls⟩ := ih
    have hnumber := hdigits.hexNumber?_eq
    refine ⟨.hex digits hdigits.ne_nil (ClassChar.isHexDigit_of_foldlM hnumber) :: ls, ?_, ?_⟩
    · simp [Pattern.Letter.written]
    · have hc : (Pattern.hex digits).toFragment = .ok (.oneOf (.only c)) := by
        rw [Pattern.toFragment, ClassChar.ofHex_eq_ok.2 hnumber]
        rfl
      rw [List.map_cons, List.map_cons, Pattern.toFragments, hls]
      show (Pattern.hex digits).toFragment >>= _ = _
      rw [hc]
      rfl

/-- Every text can be written so. -/
theorem exists_escapes (text : List Char) : ∃ pattern, Escapes text pattern := by
  induction text with
  | nil => exact ⟨[], .nil⟩
  | cons c text ih =>
    obtain ⟨pattern, hpattern⟩ := ih
    exact ⟨_, .cons ⟨0, ClassChar.toLower_toDigits c.toNat⟩ hpattern⟩

/-- An escaped text is parsed to a tree that has the fragment of the text. -/
theorem Escapes.parse_eq {text pattern : String} (h : Escapes text.toList pattern.toList) :
    ∃ tree, Pattern.parse pattern = .ok tree ∧ tree.toFragment = .ok (.literal text.toList) := by
  obtain ⟨ls, hwritten, hfragments⟩ := h.exists_letters
  refine ⟨_, Pattern.parse_letters hwritten, ?_⟩
  rw [Pattern.toFragment_ofFactors, hfragments]
  rfl

/-! ## Rules -/

section Compile

variable {α : Type}

/-- Rules are compiled by their fragments and codes only. -/
theorem compile_replace [Ord α] [DecidableEq α] {rule rule' : Rule α}
    (hfragment : rule.fragment = rule'.fragment) (hcode : rule.code = rule'.code) (config : Config)
    (before after : List (Rule α)) :
    compile config (before ++ rule :: after) = compile config (before ++ rule' :: after) := by
  have hentries :
      labelledFragments (before ++ rule :: after) = labelledFragments (before ++ rule' :: after) := by
    simp only [labelledFragments, List.mapM_append, List.mapM_cons, hfragment, hcode]
  rw [compile, compile, hentries]

end Compile

/-- Every text can be written by the code points of its characters. Any such pattern is parsed, to a
tree with the fragment of the text, and in place of a rule for the text it gives the same automaton. -/
theorem escapes_as_literal :
    (∀ text : String, ∃ pattern : String, Escapes text.toList pattern.toList) ∧
    ∀ text pattern : String, Escapes text.toList pattern.toList →
      (∃ tree, Pattern.parse pattern = .ok tree ∧
        tree.toFragment = .ok (.literal text.toList)) ∧
      ∀ {α : Type} [Ord α] [DecidableEq α] (config : Config) (before after : List (Rule α))
        (code : α), compile config (before ++ .regex pattern code :: after) =
          compile config (before ++ .literal text code :: after) := by
  constructor
  · intro text
    obtain ⟨pattern, hpattern⟩ := exists_escapes text.toList
    exact ⟨.ofList pattern, by rwa [String.toList_ofList]⟩
  · intro text pattern h
    obtain ⟨tree, htree, hfragment⟩ := h.parse_eq
    refine ⟨⟨tree, htree, hfragment⟩, fun config before after code => ?_⟩
    have hrules : (Rule.regex pattern code).fragment = (Rule.literal text code).fragment := by
      show Pattern.parse pattern >>= Pattern.toFragment = _
      rw [htree]
      exact hfragment
    exact compile_replace hrules rfl config before after

/-- Escapes with zeros and in both letter cases, in front of the text itself. -/
theorem escapes_as_literal_accented : Escapes "aé\n".toList "\\x0061;\\xE9;\\xa;".toList ∧
    (∃ tree, Pattern.parse "\\x0061;\\xE9;\\xa;" = .ok tree ∧
      tree.toFragment = .ok (.literal "aé\n".toList)) ∧
    compile ⟨true, .firstDeclared⟩ [.regex "\\x0061;\\xE9;\\xa;" 1, .literal "aé\n" 0] =
      compile ⟨true, .firstDeclared⟩ [.literal "aé\n" 1, .literal "aé\n" 0] := by
  have hescapes : Escapes "aé\n".toList "\\x0061;\\xE9;\\xa;".toList :=
    @Escapes.cons 'a' ['0', '0', '6', '1'] _ _ ⟨2, by decide⟩
      (@Escapes.cons 'é' ['E', '9'] _ _ ⟨0, by decide⟩
        (@Escapes.cons '\n' ['a'] _ _ ⟨0, by decide⟩ .nil))
  obtain ⟨hparse, hcompile⟩ := escapes_as_literal.2 _ _ hescapes
  exact ⟨hescapes, hparse, hcompile _ [] [.literal "aé\n" 0] 1⟩

end Munch
