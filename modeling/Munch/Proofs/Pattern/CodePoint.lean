-- SUMMARY: Numbers of 64 bits are enough for the characters of classes, and errors name exact values.
import Munch.Proofs.Pattern.Language

/-! # Code points

The value of an escape grows with every digit, and a shift may be by any number
of 32 bits. In numbers of 64 bits the digits are read by operations that stop at
the largest one, which no character reaches, and shifts do not overflow, as they
start at a character. So a character is the exact number that its digits and
shifts lead to, by way of characters only. An error names the first number on
that way that is none, exactly or as the largest one. -/

namespace Munch

/-! ## Numbers of 64 bits -/

namespace Word

/-- The number, or the bound that it lies beyond. -/
def saturate (value : Int) : Int64 :=
  .ofInt (max Int64.minValue.toInt (min value Int64.maxValue.toInt))

def saturatingMul (a b : Int64) : Int64 := saturate (a.toInt * b.toInt)

def saturatingAdd (a b : Int64) : Int64 := saturate (a.toInt + b.toInt)

/-- The sum, unless it overflows. -/
def add? (a b : Int64) : Option Int64 :=
  if a.toBitVec.saddOverflow b.toBitVec then none else some (a + b)

theorem toInt_saturate (value : Int) :
    (saturate value).toInt = max (-9223372036854775808) (min value 9223372036854775807) := by
  have hmin : Int64.minValue.toInt = -9223372036854775808 := by decide
  have hmax : Int64.maxValue.toInt = 9223372036854775807 := by decide
  rw [saturate, hmin, hmax, Int64.toInt_ofInt_of_le] <;> omega

theorem toInt_ofInt (value : Int) (hge : -9223372036854775808 ≤ value)
    (hle : value ≤ 9223372036854775807) : (Int64.ofInt value).toInt = value :=
  Int64.toInt_ofInt_of_le (by omega) (by omega)

/-- A sum that is a number of 64 bits does not overflow. -/
theorem add?_eq {a b : Int64} (hge : -9223372036854775808 ≤ a.toInt + b.toInt)
    (hle : a.toInt + b.toInt ≤ 9223372036854775807) :
    ∃ sum, add? a b = some sum ∧ sum.toInt = a.toInt + b.toInt := by
  have hno : ¬ a.toBitVec.saddOverflow b.toBitVec = true := by
    simp only [BitVec.saddOverflow, Int64.toInt_toBitVec, Bool.or_eq_true, decide_eq_true_eq]
    omega
  refine ⟨a + b, if_neg hno, ?_⟩
  have hsum := BitVec.toInt_add_of_not_saddOverflow hno
  rwa [← Int64.toBitVec_add, Int64.toInt_toBitVec, Int64.toInt_toBitVec,
    Int64.toInt_toBitVec] at hsum

end Word

namespace ClassChar

/-- Digits are read from left to right in numbers of 64 bits. -/
def hexWord (value : Int64) : List Char → Except PatternError Int64
  | [] => .ok value
  | c :: rest =>
    match hexDigit? c with
    | some digit =>
      hexWord (Word.saturatingAdd (Word.saturatingMul value 16) (.ofInt digit)) rest
    | none => .error (.hexDigit c)

/-- Evaluation in numbers of 64 bits, with no result if one of them overflows. -/
def evalWord? : ClassChar → Option (Except PatternError Char)
  | single c => some (.ok c)
  | escape c => some (.ok (unescape c))
  | hex digits =>
    match hexWord 0 digits with
    | .ok value => some (ofCodePoint value.toInt)
    | .error e => some (.error e)
  | offset distance item =>
    match item.evalWord? with
    | some (.ok c) =>
      (Word.add? (.ofInt c.toNat) (.ofInt distance)).map fun sum => ofCodePoint sum.toInt
    | some (.error e) => some (.error e)
    | none => none

/-- All shifts are by numbers of 32 bits. -/
def ShiftsFit : ClassChar → Prop
  | offset distance item =>
    Int32.minValue.toInt ≤ distance ∧ distance ≤ Int32.maxValue.toInt ∧ item.ShiftsFit
  | _ => True

/-- Stopping at the largest number of 64 bits is stopping at the cap. -/
theorem hexWord_eq {digits : List Char} {word : Int64} {value : Nat} (hword : word.toInt = value)
    (hcap : value ≤ valueCap) :
    (fun w : Int64 => w.toInt) <$> hexWord word digits =
      (fun n : Nat => (n : Int)) <$> hexValue value digits := by
  induction digits generalizing word value with
  | nil => exact congrArg Except.ok hword
  | cons c rest ih =>
    rw [hexWord, hexValue, hexDigit?_eq]
    cases hdigit : digitValue? c with
    | none => rfl
    | some digit =>
      have hlt := digitValue?_lt hdigit
      rw [valueCap] at hcap
      have hnext : (Word.saturatingAdd (Word.saturatingMul word 16) (.ofInt digit)).toInt =
          (appendDigit value digit : Nat) := by
        rw [Word.saturatingAdd, Word.toInt_saturate, Word.saturatingMul, Word.toInt_saturate,
          Word.toInt_ofInt digit (by omega) (by omega), hword, show (16 : Int64).toInt = 16 from rfl,
          appendDigit, valueCap]
        omega
      refine ih hnext ?_
      rw [appendDigit]
      omega

theorem evalWord?_eq {item : ClassChar} (h : item.ShiftsFit) :
    item.evalWord? = some item.eval := by
  induction item with
  | single c => rfl
  | escape c => rfl
  | hex digits =>
    have hread : (fun w : Int64 => w.toInt) <$> hexWord 0 digits =
        (fun n : Nat => (n : Int)) <$> hexValue 0 digits := hexWord_eq rfl (Nat.zero_le _)
    rw [evalWord?, eval, ofHex]
    cases hvalue : hexValue 0 digits with
    | error e =>
      rw [hvalue] at hread
      rw [Checked.map_eq_error hread]
    | ok value =>
      rw [hvalue] at hread
      obtain ⟨word, hword, heq⟩ := Checked.map_eq_ok hread
      rw [hword]
      exact congrArg (fun v => some (ofCodePoint v)) heq
  | offset distance item ih =>
    obtain ⟨hge, hle, hitem⟩ := h
    have hmin : Int32.minValue.toInt = -2147483648 := by decide
    have hmax : Int32.maxValue.toInt = 2147483647 := by decide
    rw [evalWord?, eval, ih hitem]
    cases item.eval with
    | error e => rfl
    | ok c =>
      have hc := Symbol.char_gap c
      have hfirst := Word.toInt_ofInt c.toNat (by omega) (by omega)
      have hsecond := Word.toInt_ofInt distance (by omega) (by omega)
      obtain ⟨sum, hsum, heq⟩ := Word.add?_eq (a := .ofInt c.toNat) (b := .ofInt distance)
        (by rw [hfirst, hsecond]; omega) (by rw [hfirst, hsecond]; omega)
      show (Word.add? _ _).map _ = _
      rw [hsum, Option.map_some, heq, hfirst, hsecond]

/-! ## Exact values -/

/-- The code points of characters: no surrogates, and none beyond the last character. -/
def IsScalar (value : Int) : Prop := 0 ≤ value ∧ value < 0xD800 ∨ 0xE000 ≤ value ∧ value < 0x110000

instance (value : Int) : Decidable (IsScalar value) := inferInstanceAs (Decidable (_ ∨ _))

/-- The first of the digits that is no digit. -/
def badDigit? : ClassChar → Option Char
  | hex digits => digits.find? fun c => (digitValue? c).isNone
  | offset _ item => item.badDigit?
  | _ => none

/-- The number that digits and shifts lead to, if all digits are digits. -/
def value : ClassChar → Int
  | single c => c.toNat
  | escape c => escapedCode c
  | hex digits => ((hexNumber? digits).getD 0 : Nat)
  | offset distance item => item.value + distance

/-- The numbers on the way there, the innermost first. -/
def values : ClassChar → List Int
  | offset distance item => item.values ++ [item.value + distance]
  | item => [item.value]

/-- The code point that an item evaluates to, or what is wrong in its innermost part that fails. -/
def codePoint (item : ClassChar) : Except PatternError Int :=
  match item.badDigit? with
  | some c => .error (.hexDigit c)
  | none =>
    match item.values.find? fun v => !decide (IsScalar v) with
    | some v => .error (.codePoint (min v valueCap))
    | none => .ok item.value

theorem isScalar_toNat (c : Char) : IsScalar c.toNat := by
  have hc := Symbol.char_gap c
  rw [IsScalar]
  omega

theorem isScalar_iff {value : Int} : IsScalar value ↔ 0 ≤ value ∧ value.toNat.isValidChar := by
  rw [IsScalar, Nat.isValidChar]
  omega

theorem toNat_ofCodePoint (value : Int) :
    (fun c : Char => (c.toNat : Int)) <$> ofCodePoint value =
      if IsScalar value then .ok value else .error (.codePoint value) := by
  by_cases h : IsScalar value
  · have hvalid := isScalar_iff.1 h
    rw [if_pos h, ofCodePoint, dif_pos hvalid]
    exact congrArg Except.ok (Int.toNat_of_nonneg hvalid.1)
  · rw [if_neg h, ofCodePoint, dif_neg fun hvalid => h (isScalar_iff.2 hvalid)]
    rfl

/-! ### Digits -/

theorem hexValue_eq_error {digits : List Char} {c : Char} {value : Nat}
    (h : digits.find? (fun c => (digitValue? c).isNone) = some c) :
    hexValue value digits = .error (.hexDigit c) := by
  induction digits generalizing value with
  | nil => cases h
  | cons d rest ih =>
    rw [hexValue, hexDigit?_eq]
    cases hd : digitValue? d with
    | none =>
      rw [List.find?_cons_of_pos (by rw [hd]; rfl)] at h
      cases h
      rfl
    | some digit =>
      rw [List.find?_cons_of_neg (by simp [hd])] at h
      exact ih h

theorem exists_hexNumber {digits : List Char} (number : Nat)
    (h : digits.find? (fun c => (digitValue? c).isNone) = none) :
    ∃ n, digits.foldlM (fun value c => (digitValue? c).map (value * 16 + ·)) number = some n := by
  induction digits generalizing number with
  | nil => exact ⟨number, rfl⟩
  | cons d rest ih =>
    cases hd : digitValue? d with
    | none =>
      rw [List.find?_cons_of_pos (by rw [hd]; rfl)] at h
      cases h
    | some digit =>
      rw [List.find?_cons_of_neg (by simp [hd])] at h
      rw [List.foldlM_cons, hd]
      exact ih _ h

/-- The cap lies beyond the last character, so what is capped is no code point before or after. -/
theorem isScalar_min {value : Int} : IsScalar (min value valueCap) ↔ IsScalar value := by
  rw [IsScalar, IsScalar, valueCap]
  omega

theorem min_valueCap {value : Int} (h : IsScalar value) : min value valueCap = value := by
  rw [IsScalar] at h
  rw [valueCap]
  omega

/-- Without a shift there is only one number on the way. -/
theorem codePoint_of_values {item : ClassChar} (hbad : item.badDigit? = none)
    (hvalues : item.values = [item.value]) :
    item.codePoint = if IsScalar item.value then .ok item.value
      else .error (.codePoint (min item.value valueCap)) := by
  rw [codePoint, hbad, hvalues]
  by_cases h : IsScalar item.value <;> simp [h]

/-- Whether the number is a code point is decided in the same way if it is capped first. -/
theorem toNat_ofCodePoint_min (number : Nat) :
    (fun c : Char => (c.toNat : Int)) <$> ofCodePoint (min number valueCap : Nat) =
      if IsScalar number then .ok (number : Int)
      else .error (.codePoint (min (number : Int) valueCap)) := by
  -- Under a name of its own the capped number is not computed with.
  obtain ⟨capped, hcapped⟩ : ∃ capped, min number valueCap = capped := ⟨_, rfl⟩
  have hcast : (capped : Int) = min (number : Int) valueCap := by omega
  rw [hcapped, toNat_ofCodePoint, hcast]
  by_cases h : IsScalar number
  · rw [if_pos (isScalar_min.2 h), min_valueCap h, if_pos h]
  · rw [if_neg (mt isScalar_min.1 h), if_neg h]

theorem toNat_ofHex (digits : List Char) :
    (fun c : Char => (c.toNat : Int)) <$> ofHex digits = (hex digits).codePoint := by
  cases hbad : digits.find? fun c => (digitValue? c).isNone with
  | some c =>
    rw [ofHex, hexValue_eq_error hbad, codePoint, badDigit?, hbad]
    rfl
  | none =>
    obtain ⟨n, hn⟩ := exists_hexNumber 0 hbad
    have hread : hexValue 0 digits = .ok (min n valueCap) := (hexValue_eq_ok rfl).2 ⟨n, hn, rfl⟩
    have hdigits : (hex digits).badDigit? = none := hbad
    have hvalue : (hex digits).value = n := by
      rw [value, hexNumber?, hn]
      rfl
    rw [ofHex, hread, codePoint_of_values hdigits rfl, hvalue]
    exact toNat_ofCodePoint_min n

/-! ### Shifts -/

/-- A shift goes on from the code point of its item. -/
theorem codePoint_offset (distance : Int) (item : ClassChar) :
    (offset distance item).codePoint = item.codePoint >>= fun v =>
      if IsScalar (v + distance) then .ok (v + distance)
      else .error (.codePoint (min (v + distance) valueCap)) := by
  rw [codePoint, codePoint, badDigit?, values, List.find?_append]
  cases item.badDigit? with
  | some c => rfl
  | none =>
    cases item.values.find? fun v => !decide (IsScalar v) with
    | some v => rfl
    | none =>
      by_cases h : IsScalar (item.value + distance) <;> simp [h, value, Checked.ok_bind]

/-- No shift by 32 bits leads from a character beyond the cap. -/
theorem toNat_shift (c : Char) {distance : Int} (hle : distance ≤ 2147483647) :
    (fun c : Char => (c.toNat : Int)) <$> ofCodePoint (c.toNat + distance) =
      if IsScalar (c.toNat + distance) then .ok (c.toNat + distance)
      else .error (.codePoint (min (c.toNat + distance) valueCap)) := by
  have hc := Symbol.char_gap c
  have hcap : min (c.toNat + distance) (valueCap : Int) = c.toNat + distance := by
    rw [valueCap]
    omega
  rw [toNat_ofCodePoint, hcap]

theorem toNat_eval {item : ClassChar} (h : item.ShiftsFit) :
    (fun c : Char => (c.toNat : Int)) <$> item.eval = item.codePoint := by
  induction item with
  | single c =>
    rw [codePoint_of_values rfl rfl, value, if_pos (isScalar_toNat c)]
    rfl
  | escape c =>
    rw [codePoint_of_values rfl rfl, value, ← toNat_unescape, if_pos (isScalar_toNat (unescape c))]
    rfl
  | hex digits => exact toNat_ofHex digits
  | offset distance item ih =>
    obtain ⟨-, hle, hitem⟩ := h
    have hmax : Int32.maxValue.toInt = 2147483647 := by decide
    rw [codePoint_offset, ← ih hitem, eval]
    cases item.eval with
    | error e => rfl
    | ok c => exact toNat_shift c (hmax ▸ hle)

/-- Evaluation of a character does not overflow in numbers of 64 bits, however long the digits and
however deep the shifts. It leads to the code point that digits and shifts lead to exactly, if it is
a code point all the way; and else to the first bad digit or to the first number that is none. -/
theorem eval_codePoint (item : ClassChar) (h : item.ShiftsFit) :
    item.evalWord? = some item.eval ∧
      (fun c : Char => (c.toNat : Int)) <$> item.eval = item.codePoint :=
  ⟨evalWord?_eq h, toNat_eval h⟩

/-- Both shifts together would lead to a character, but the inner one fails. -/
theorem eval_codePoint_below :
    (offset 3 (.offset (-0x62) (.single 'a'))).ShiftsFit ∧
      (offset 3 (.offset (-0x62) (.single 'a'))).evalWord? = some (.error (.codePoint (-1))) := by
  have hfit : (offset 3 (.offset (-0x62) (.single 'a'))).ShiftsFit := by
    simp only [ShiftsFit]
    decide
  have hcode : (offset 3 (.offset (-0x62) (.single 'a'))).codePoint = .error (.codePoint (-1)) := by
    decide +kernel
  obtain ⟨hword, heval⟩ := eval_codePoint _ hfit
  rw [hcode] at heval
  exact ⟨hfit, hword.trans (congrArg some (Checked.map_eq_error heval))⟩

/-- After forty digits only the error tells that reading them stopped at the cap. -/
example : (hex (.replicate 40 'F')).codePoint = .error (.codePoint 0x7FFFFFFFFFFFFFFF) := by
  decide +kernel

end ClassChar

end Munch
