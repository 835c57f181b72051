-- SUMMARY: What escapes and hexadecimal digits stand for, and that evaluation finds it.
import Munch.Pattern.Eval

/-! # Escapes and digits

A letter after a backslash stands for the control character that it is the
letter of, and any other character for itself. A hexadecimal digit stands for
the number that is written with it, in either letter case. Evaluation finds
both by cases. -/

namespace Munch.ClassChar

/-! ## Escapes -/

/-- The control characters that have a letter, by their code points: bell, backspace, horizontal tab,
line feed, vertical tab, form feed and carriage return. -/
def controlCodes : List (Char × Nat) :=
  [('a', 7), ('b', 8), ('t', 9), ('n', 10), ('v', 11), ('f', 12), ('r', 13)]

/-- The code point of what a character stands for after a backslash. -/
def escapedCode (c : Char) : Nat := (controlCodes.lookup c).getD c.toNat

theorem toNat_unescape (c : Char) : (unescape c).toNat = escapedCode c := by
  unfold unescape
  split
  case h_8 ha hb ht hn hv hf hr =>
    -- The cases that were ruled out are the letters of the table.
    have hnone : controlCodes.lookup c = none := by
      refine List.lookup_eq_none_iff.2 fun entry hentry => ?_
      simp only [controlCodes, List.mem_cons, List.not_mem_nil, or_false] at hentry
      rcases hentry with rfl | rfl | rfl | rfl | rfl | rfl | rfl <;> simpa
    rw [escapedCode, hnone]
    rfl
  all_goals rfl

/-! ## Digits -/

/-- The number below 16 that is written with a digit, in either letter case. -/
def digitValue? (c : Char) : Option Nat :=
  (List.range 16).find? fun n => n.digitChar = c.toLower

theorem digitValue?_lt {c : Char} {n : Nat} (h : digitValue? c = some n) : n < 16 :=
  List.mem_range.1 (List.mem_of_find?_eq_some h)

theorem digitValue?_digitChar {n : Nat} (h : n < 16) : digitValue? n.digitChar = some n := by
  revert n
  decide

/-! ### Beyond ASCII -/

theorem toLower_of_le {c : Char} (h : 128 ≤ c.toNat) : c.toLower = c := by
  refine dif_neg fun hupper => ?_
  have hle : c.toNat ≤ 90 := hupper.2
  omega

theorem digitValue?_of_le {c : Char} (h : 128 ≤ c.toNat) : digitValue? c = none := by
  have hdigits : ∀ n < 16, n.digitChar.toNat < 128 := by decide
  refine List.find?_eq_none.2 fun n hn => ?_
  rw [toLower_of_le h, decide_eq_true_eq]
  rintro rfl
  exact Nat.not_le_of_lt (hdigits n (List.mem_range.1 hn)) h

theorem hexDigit?_of_le {c : Char} (h : 128 ≤ c.toNat) : hexDigit? c = none := by
  have hrange : ∀ a b : Char, b.toNat < 128 → ¬ (decide (a ≤ c) && decide (c ≤ b)) = true := by
    intro a b hb hc
    have hle : c.toNat ≤ b.toNat := of_decide_eq_true (Bool.and_eq_true_iff.1 hc).2
    omega
  rw [hexDigit?, if_neg (hrange _ _ (by decide)), if_neg (hrange _ _ (by decide)),
    if_neg (hrange _ _ (by decide))]

/-- A property that all characters beyond ASCII have is checked for the others. -/
theorem forall_char {P : Char → Prop} (hascii : ∀ code < 128, P (.ofNat code))
    (hbeyond : ∀ c : Char, 128 ≤ c.toNat → P c) (c : Char) : P c := by
  by_cases h : c.toNat < 128
  · rw [← c.ofNat_toNat]
    exact hascii _ h
  · exact hbeyond c (Nat.le_of_not_lt h)

theorem toLower_toLower : ∀ c : Char, c.toLower.toLower = c.toLower :=
  forall_char (by decide) fun c h => by rw [toLower_of_le h, toLower_of_le h]

theorem digitValue?_toLower (c : Char) : digitValue? c.toLower = digitValue? c := by
  rw [digitValue?, digitValue?, toLower_toLower]

/-- Digits are read as the numbers that are written with them. -/
theorem hexDigit?_eq : ∀ c : Char, hexDigit? c = digitValue? c :=
  forall_char (by decide +kernel) fun c h => by rw [hexDigit?_of_le h, digitValue?_of_le h]

example : "0123456789abcdefABCDEF".toList.map hexDigit? =
    (List.range 16 ++ [10, 11, 12, 13, 14, 15]).map some := by decide

end Munch.ClassChar
