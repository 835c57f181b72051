-- SUMMARY: What is written in a binary form is read again, whatever bytes come behind it.
import Munch.Binary.Basic
import Munch.Proofs.Checked
import Mathlib.Algebra.Ring.Nat

/-! # Reading what was written

Forms are put together by writing them one after the other, so for each it is
shown that its reader stops where the writer did. A number has only as many
bytes as a machine word: a value must fit to be read again. -/

namespace Munch.Binary

/-! ## Values that fit -/

/-- Which values fit in memory. Their numbers and lengths have at most 64 bits. -/
class Sized (β : Type) where
  fits : β → Bool

export Sized (fits)

instance : Sized Nat := ⟨fun n => n < 2 ^ 64⟩

instance : Sized Int64 := ⟨fun _ => true⟩

instance : Sized Char := ⟨fun _ => true⟩

instance : Sized String := ⟨fun s => s.utf8ByteSize < 2 ^ 64⟩

instance {β : Type} [Sized β] : Sized (Option β) := ⟨fun x => x.all fits⟩

instance {β γ : Type} [Sized β] [Sized γ] : Sized (β × γ) := ⟨fun p => fits p.1 && fits p.2⟩

instance {β : Type} [Sized β] : Sized (List β) := ⟨fun xs => xs.length < 2 ^ 64 && xs.all fits⟩

theorem fits_nat {n : Nat} : fits n ↔ n < 2 ^ 64 := decide_eq_true_iff

theorem fits_string {s : String} : fits s ↔ s.utf8ByteSize < 2 ^ 64 := decide_eq_true_iff

theorem fits_option {β : Type} [Sized β] {o : Option β} : fits o ↔ ∀ x ∈ o, fits x := by
  cases o <;> simp [fits]

theorem fits_pair {β γ : Type} [Sized β] [Sized γ] {p : β × γ} : fits p ↔ fits p.1 ∧ fits p.2 :=
  Bool.and_eq_true_iff

theorem fits_list {β : Type} [Sized β] {xs : List β} :
    fits xs ↔ xs.length < 2 ^ 64 ∧ ∀ x ∈ xs, fits x :=
  Bool.and_eq_true_iff.trans (and_congr decide_eq_true_iff List.all_eq_true)

/-- Forms whose reader takes just what was written, if it fits. -/
class Recovers (β : Type) [Coded β] [Sized β] : Prop where
  read_write : ∀ {x : β}, fits x → ∀ rest, read (write x ++ rest) = .ok (x, rest)

export Recovers (read_write)

theorem read_bind {β γ : Type} [Coded β] [Sized β] [Recovers β] {x : β} (h : fits x)
    (rest : List UInt8) (f : β × List UInt8 → Except Cause γ) :
    read (write x ++ rest) >>= f = f (x, rest) := by
  rw [read_write h, Checked.ok_bind]

/-! ## Numbers -/

theorem length_littleEndian (width n : Nat) : (littleEndian width n).length = width := by
  induction width generalizing n with
  | zero => rfl
  | succ width ih => rw [littleEndian, List.length_cons, ih]

theorem ofLittleEndian_littleEndian {width n : Nat} (h : n < 256 ^ width) :
    ofLittleEndian (littleEndian width n) = n := by
  induction width generalizing n with
  | zero =>
    rw [pow_zero, Nat.lt_one_iff] at h
    exact h.symm
  | succ width ih =>
    have hdiv : n / 256 < 256 ^ width := Nat.div_lt_of_lt_mul (by rwa [pow_succ'] at h)
    have hbyte : (UInt8.ofNat (n % 256)).toNat = n % 256 :=
      UInt8.toNat_ofNat_of_lt' (Nat.mod_lt n (by decide))
    rw [littleEndian, ofLittleEndian, hbyte, ih hdiv, Nat.mod_add_div]

theorem readFixed_littleEndian (width : Nat) {n : Nat} (h : n < 256 ^ width) (rest : List UInt8) :
    readFixed width (littleEndian width n ++ rest) = .ok (n, rest) := by
  have hlength := length_littleEndian width n
  rw [readFixed, if_neg (by rw [List.length_append]; omega), List.take_left' hlength,
    List.drop_left' hlength, ofLittleEndian_littleEndian h]

theorem readNat_writeNat {n : Nat} (h : n < 2 ^ 64) (rest : List UInt8) :
    readNat (writeNat n ++ rest) = .ok (n, rest) := by
  -- One case for each width. Behind a single byte nothing is read; else the first byte is the mark.
  unfold writeNat
  split
  case isTrue hbyte =>
    have hn : (UInt8.ofNat n).toNat = n := UInt8.toNat_ofNat_of_lt' (Nat.lt_trans hbyte (by decide))
    have hlt : UInt8.ofNat n < 0xFB := UInt8.lt_iff_toNat_lt.2 (by rw [hn]; exact hbyte)
    rw [List.singleton_append, readNat, if_pos hlt, hn]
  split
  case isTrue hn => exact readFixed_littleEndian 2 hn rest
  split
  case isTrue hn => exact readFixed_littleEndian 4 hn rest
  case isFalse => exact readFixed_littleEndian 8 h rest

example : writeNat 300 = [0xFB, 44, 1] := by decide

instance : Recovers Nat := ⟨fun h => readNat_writeNat (fits_nat.1 h)⟩

theorem unzigzag_zigzag (n : Int) : unzigzag (zigzag n) = n := by
  unfold unzigzag zigzag
  split <;> split <;> omega

theorem zigzag_lt (n : Int64) : zigzag n.toInt < 2 ^ 64 := by
  have hlow := n.le_toInt
  have hhigh := n.toInt_lt
  unfold zigzag
  split <;> omega

instance : Recovers Int64 where
  read_write {n} _ rest := by
    show readNat (writeNat (zigzag n.toInt) ++ rest) >>= _ = _
    rw [readNat_writeNat (zigzag_lt n), Checked.ok_bind]
    dsimp only
    rw [unzigzag_zigzag, Int64.ofInt_toInt]
    rfl

/-! ## Text -/

instance : Recovers Char where
  read_write {c} _ rest := by
    have hlength := String.length_utf8EncodeChar c
    -- The reader looks at four bytes, so some of the rest may be among them.
    have htake : (String.utf8EncodeChar c ++ rest).take 4 =
        String.utf8EncodeChar c ++ rest.take (4 - c.utf8Size) := by
      rw [List.take_append, List.take_of_length_le (hlength ▸ c.utf8Size_le_four), hlength]
    have hread : read (write c ++ rest) =
        match ((String.utf8EncodeChar c ++ rest).take 4).toByteArray.utf8DecodeChar? 0 with
        | some c' => .ok (c', (String.utf8EncodeChar c ++ rest).drop c'.utf8Size)
        | none => .error .malformed := rfl
    rw [hread, htake, List.toByteArray_append, ByteArray.utf8DecodeChar?_utf8EncodeChar_append]
    dsimp only
    rw [List.drop_left' hlength]

theorem toByteArray_flatMap (s : String) :
    (s.toList.flatMap String.utf8EncodeChar).toByteArray = s.toByteArray := s.utf8Encode_toList

theorem length_flatMap_utf8EncodeChar (s : String) :
    (s.toList.flatMap String.utf8EncodeChar).length = s.utf8ByteSize := by
  rw [← List.size_toByteArray, toByteArray_flatMap, String.size_toByteArray]

theorem fromUTF8?_toByteArray (s : String) : String.fromUTF8? s.toByteArray = some s :=
  dif_pos s.isValidUTF8

instance : Recovers String where
  read_write {s} h rest := by
    have hlength := length_flatMap_utf8EncodeChar s
    show readNat (writeNat s.utf8ByteSize ++ s.toList.flatMap String.utf8EncodeChar ++ rest) >>= _ =
      _
    rw [List.append_assoc, readNat_writeNat (fits_string.1 h), Checked.ok_bind]
    dsimp only
    rw [if_neg (by rw [List.length_append]; omega), List.take_left' hlength,
      List.drop_left' hlength, toByteArray_flatMap, fromUTF8?_toByteArray]
    rfl

/-! ## Composition -/

section

variable {β γ : Type} [Coded β] [Sized β] [Recovers β] [Coded γ] [Sized γ] [Recovers γ]

instance : Recovers (Option β) where
  read_write {x} h rest := by
    cases x with
    | none => rfl
    | some x => exact read_bind (fits_option.1 h x rfl) rest _

instance : Recovers (β × γ) where
  read_write {p} h rest := by
    obtain ⟨hx, hy⟩ := fits_pair.1 h
    show read (write p.1 ++ write p.2 ++ rest) >>= _ = _
    rw [List.append_assoc, read_bind hx]
    exact read_bind hy rest _

theorem readMany_flatMap {xs : List β} (h : ∀ x ∈ xs, fits x) (rest : List UInt8) :
    readMany xs.length (xs.flatMap write ++ rest) = .ok (xs, rest) := by
  induction xs with
  | nil => rfl
  | cons x xs ih =>
    obtain ⟨hx, hxs⟩ := List.forall_mem_cons.1 h
    rw [List.flatMap_cons, List.append_assoc, List.length_cons, readMany, read_bind hx]
    dsimp only
    rw [ih hxs]
    rfl

instance : Recovers (List β) where
  read_write {xs} h rest := by
    obtain ⟨hlength, hall⟩ := fits_list.1 h
    show readNat (writeNat xs.length ++ xs.flatMap write ++ rest) >>= _ = _
    rw [List.append_assoc, readNat_writeNat hlength, Checked.ok_bind]
    exact readMany_flatMap hall rest

end

end Munch.Binary
