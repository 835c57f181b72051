-- SUMMARY: A written lexer that has lost its end, or has bytes behind its end, is not read.
import Munch.Proofs.Binary.RoundTrip

/-! # Damaged forms

A reader does not look behind the bytes that it takes, so more bytes change
nothing about what it has read. A form that has lost its end is therefore not
read at all: the same value would be read from the whole form too, and leave
the end behind. -/

namespace Munch

namespace Binary

variable {β γ : Type}

/-! ## Readers and the bytes behind -/

/-- Unless the bytes ended too early, bytes behind them change neither the value nor the error. -/
def Steady (r : Reader β) : Prop :=
  ∀ bytes more, r bytes ≠ .error .malformed →
    r (bytes ++ more) = (r bytes).map fun p => (p.1, p.2 ++ more)

namespace Steady

theorem pure (x : β) : Steady fun bytes => .ok (x, bytes) := fun _ _ _ => rfl

theorem throw (e : Cause) : Steady fun _ => (.error e : Except Cause (β × List UInt8)) :=
  fun _ _ _ => rfl

theorem bind {r : Reader β} {f : β → Reader γ} (hr : Steady r) (hf : ∀ x, Steady (f x)) :
    Steady fun bytes => r bytes >>= fun p => f p.1 p.2 := by
  intro bytes more h
  dsimp only at h ⊢
  cases hread : r bytes with
  | error e =>
    rw [hread] at h
    have he : e ≠ .malformed := fun heq => h (by rw [heq]; rfl)
    rw [hr bytes more (by rw [hread]; exact fun heq => he (Except.error.inj heq)), hread]
    rfl
  | ok p =>
    rw [hread, Checked.ok_bind] at h
    rw [hr bytes more (by rw [hread]; nofun), hread]
    exact hf p.1 p.2 more h

theorem ite {c : Prop} [Decidable c] {r r' : Reader β} (hr : Steady r) (hr' : Steady r') :
    Steady fun bytes => if c then r bytes else r' bytes := by
  by_cases hc : c
  · simpa only [if_pos hc] using hr
  · simpa only [if_neg hc] using hr'

/-- A reader that needs a byte. -/
theorem of_cons {r : Reader β} (hnil : r [] = .error .malformed)
    (hcons : ∀ b, Steady fun rest => r (b :: rest)) : Steady r := by
  intro bytes more h
  cases bytes with
  | nil => exact absurd hnil h
  | cons b rest => exact hcons b rest more h

/-- What has been read may decide about the value or an error, without a look at more bytes. -/
theorem map {r : Reader β} (hr : Steady r) (f : β → γ) :
    Steady fun bytes => r bytes >>= fun p => .ok (f p.1, p.2) :=
  hr.bind fun x => pure (f x)

/-- A reader that takes a block of bytes and makes a value of it. -/
theorem of_block {r : Reader β} (size : Nat) (f : List UInt8 → Except Cause β)
    (hr : ∀ bytes, r bytes = if bytes.length < size then .error .malformed else
      (f (bytes.take size)).map fun x => (x, bytes.drop size)) : Steady r := by
  intro bytes more h
  rw [hr] at h
  split at h
  case isTrue => exact absurd rfl h
  case isFalse hlength =>
    have hle : size ≤ bytes.length := Nat.le_of_not_lt hlength
    rw [hr, hr, if_neg hlength, if_neg (by rw [List.length_append]; omega),
      List.take_append_of_le_length hle, List.drop_append_of_le_length hle]
    cases f (bytes.take size) <;> rfl

end Steady

/-- Forms that tell where they end. -/
class Delimited (β : Type) [Coded β] : Prop where
  steady_read : Steady (read : Reader β)

export Delimited (steady_read)

/-- A form without its end is malformed. -/
theorem read_cut [Coded β] [Sized β] [Recovers β] [Delimited β] {x : β} (hx : fits x)
    {bytes : List UInt8} (hbytes : bytes <+: write x) (hne : bytes ≠ write x) :
    (read bytes : Except Cause (β × List UInt8)) = .error .malformed := by
  obtain ⟨more, hmore⟩ := hbytes
  by_contra hread
  have hsteady := steady_read (β := β) bytes more hread
  have hwhole := read_write hx []
  rw [List.append_nil, ← hmore, hsteady] at hwhole
  cases hr : (read bytes : Except Cause (β × List UInt8)) with
  | error e =>
    rw [hr] at hwhole
    cases hwhole
  | ok p =>
    rw [hr] at hwhole
    have hrest : p.2 ++ more = [] := congrArg Prod.snd (Except.ok.inj hwhole)
    rw [(List.append_eq_nil_iff.1 hrest).2, List.append_nil] at hmore
    exact hne hmore

/-! ## Numbers -/

theorem steady_readFixed (width : Nat) : Steady (readFixed width) :=
  .of_block width (fun block => .ok (ofLittleEndian block)) fun _ => rfl

theorem steady_readNat : Steady readNat :=
  .of_cons rfl fun _ => .ite (.pure _) <| .ite (steady_readFixed 2) <| .ite (steady_readFixed 4) <|
    .ite (steady_readFixed 8) (.throw _)

instance : Delimited Nat := ⟨steady_readNat⟩

instance : Delimited Int64 := ⟨steady_readNat.map fun n => Int64.ofInt (unzigzag n)⟩

/-! ## Text -/

instance : Delimited Char where
  steady_read := by
    intro bytes more h
    have hread : ∀ bytes : List UInt8, read bytes =
        match (bytes.take 4).toByteArray.utf8DecodeChar? 0 with
        | some c => .ok (c, bytes.drop c.utf8Size)
        | none => .error .malformed := fun _ => rfl
    cases hc : (bytes.take 4).toByteArray.utf8DecodeChar? 0 with
    | none => exact absurd (by rw [hread, hc]) h
    | some c =>
      have hsize := ByteArray.le_size_of_utf8DecodeChar?_eq_some hc
      rw [List.size_toByteArray, List.length_take] at hsize
      -- The reader looks at four bytes, so some of those behind may be among them.
      have hmore : ((bytes ++ more).take 4).toByteArray.utf8DecodeChar? 0 = some c := by
        rw [List.take_append, List.toByteArray_append]
        exact ByteArray.utf8DecodeChar?_append_eq_some hc _
      rw [hread, hmore, hread, hc]
      dsimp only
      rw [List.drop_append_of_le_length (by omega)]
      rfl

instance : Delimited String where
  steady_read := by
    refine steady_readNat.bind (f := fun size rest => do
      if rest.length < size then throw .malformed
      match String.fromUTF8? (rest.take size).toByteArray with
      | some s => return (s, rest.drop size)
      | none => throw .malformed) fun size => ?_
    refine .of_block size (fun block =>
      match String.fromUTF8? block.toByteArray with
      | some s => .ok s
      | none => .error .malformed) fun bytes => ?_
    by_cases hlength : bytes.length < size
    · rw [if_pos hlength, if_pos hlength]
      rfl
    · rw [if_neg hlength, if_neg hlength]
      cases String.fromUTF8? (bytes.take size).toByteArray <;> rfl

/-! ## Composition -/

section

variable [Coded β] [Delimited β] [Coded γ] [Delimited γ]

instance : Delimited (Option β) where
  steady_read := by
    refine .of_cons rfl fun b => ?_
    by_cases hzero : b = 0
    · subst hzero
      exact .pure none
    by_cases hone : b = 1
    · subst hone
      exact steady_read.map some
    have hother : ∀ rest : List UInt8, (read (b :: rest) : Except Cause (Option β × List UInt8)) =
        .error .malformed := by
      intro rest
      simp only [read]
      split <;> simp_all
    simp only [hother]
    exact .throw .malformed

instance : Delimited (β × γ) where
  steady_read := steady_read.bind fun x => steady_read.map fun y => (x, y)

theorem steady_readMany (count : Nat) : Steady (readMany count : Reader (List β)) := by
  induction count with
  | zero => exact .pure []
  | succ count ih => exact steady_read.bind fun x => ih.map fun xs => x :: xs

instance : Delimited (List β) where
  steady_read := steady_readNat.bind steady_readMany

end

end Binary

open Binary

/-! ## Automata -/

section

variable {σ α : Type} [Symbol σ] [Coded σ] [Delimited σ] [Coded α] [Delimited α]

instance : Delimited (RangeSet σ) where
  steady_read := by
    refine (steady_read (β := List σ)).bind (f := fun bounds rest =>
      match RangeSet.ofBounds? bounds with
      | some a => .ok (a, rest)
      | none => .error .bounds) fun bounds => ?_
    cases RangeSet.ofBounds? bounds with
    | none => exact .throw .bounds
    | some a => exact .pure a

instance : Delimited (Dfa.State σ α) where
  steady_read := (steady_read (β := List (RangeSet σ × Nat) × Option α)).map fun p =>
    (⟨p.1, p.2⟩ : Dfa.State σ α)

instance : Delimited (Dfa σ α) where
  steady_read := (steady_read (β := Nat × Option Nat × List (Dfa.State σ α))).map fun p =>
    (⟨p.1, p.2.1, p.2.2.toArray⟩ : Dfa σ α)

end

/-! ## Lexers -/

namespace Lexer

theorem length_header : header.length = 6 := rfl

section

variable {α κ : Type} [Coded α] [Ord κ] [Coded κ] [Std.TransOrd κ]

theorem decode_of_length_lt {bytes : List UInt8} (h : bytes.length < header.length) :
    (decode bytes : Except DecodeError (Lexer α κ)) = .error .format := by
  refine if_neg fun hbytes => ?_
  have hle := (List.isPrefixOf_iff_prefix.1 hbytes).length_le
  omega

theorem decode_of_error {bytes : List UInt8} {cause : Cause}
    (h : (read bytes : Except Cause (List (κ × Dfa Char α) × List UInt8)) = .error cause) :
    (decode (header ++ bytes) : Except DecodeError (Lexer α κ)) = .error (.encoding cause) := by
  rw [decode, if_pos (isPrefixOf_header_append _), List.drop_left, h]

theorem decode_of_trailing {bytes rest : List UInt8} {b : UInt8} {modes : List (κ × Dfa Char α)}
    (h : read bytes = .ok (modes, b :: rest)) :
    (decode (header ++ bytes) : Except DecodeError (Lexer α κ)) = .error (.encoding .trailing) := by
  rw [decode, if_pos (isPrefixOf_header_append _), List.drop_left, h]

variable [Sized α] [Recovers α] [Sized κ] [Recovers κ]

theorem decode_cut [Delimited α] [Delimited κ] {l : Lexer α κ} (hl : fits l) {bytes : List UInt8}
    (hbytes : bytes <+: encode l) (hne : bytes ≠ encode l) :
    (decode bytes : Except DecodeError (Lexer α κ)) =
      .error (if bytes.length < header.length then .format else .encoding .malformed) := by
  split
  case isTrue hlength => exact decode_of_length_lt hlength
  case isFalse hlength =>
    obtain ⟨rest, rfl⟩ := List.prefix_of_prefix_length_le (List.prefix_append ..) hbytes
      (Nat.le_of_not_lt hlength)
    have hcut : rest <+: write l.modes.entries := (List.prefix_append_right_inj header).1 hbytes
    have hrest : rest ≠ write l.modes.entries := fun heq => hne (by rw [heq]; rfl)
    exact decode_of_error (read_cut (x := l.modes.entries) hl hcut hrest)

theorem decode_extended {l : Lexer α κ} (hl : fits l) {extra : List UInt8} (h : extra ≠ []) :
    (decode (encode l ++ extra) : Except DecodeError (Lexer α κ)) =
      .error (.encoding .trailing) := by
  obtain ⟨b, extra, rfl⟩ := List.exists_cons_of_ne_nil h
  rw [encode, List.append_assoc]
  exact decode_of_trailing (read_write (x := l.modes.entries) hl (b :: extra))

end

/-! ## Refusal -/

/-- No written lexer with codes of the type `α` and modes named by strings is read without its end,
or with bytes behind its end. The header is looked for first. -/
structure RefusesDamaged (α : Type) [Coded α] [Sized α] : Prop where
  cut : ∀ l : Lexer α, fits l → ∀ bytes, bytes <+: encode l → bytes ≠ encode l →
    (decode bytes : Except DecodeError (Lexer α)) =
      .error (if bytes.length < 6 then .format else .encoding .malformed)
  extended : ∀ l : Lexer α, fits l → ∀ extra, extra ≠ [] →
    (decode (encode l ++ extra) : Except DecodeError (Lexer α)) = .error (.encoding .trailing)

theorem refusesDamaged {α : Type} [Coded α] [Sized α] [Recovers α] [Delimited α] :
    RefusesDamaged α where
  cut _ hl _ hbytes hne := length_header ▸ decode_cut hl hbytes hne
  extended _ hl _ h := decode_extended hl h

/-- Codes may be signed or unsigned numbers or strings. -/
theorem refusesDamaged_int_nat_string :
    RefusesDamaged Int64 ∧ RefusesDamaged Nat ∧ RefusesDamaged String :=
  ⟨refusesDamaged, refusesDamaged, refusesDamaged⟩

/-- The last byte is the code of the accepting state. An automaton that is not well formed is not
looked at before the end of the bytes. -/
theorem oneLetter_damaged :
    (decode ((encode (oneLetter 1)).take 5) : Except DecodeError (Lexer Int64)) =
        .error .format ∧
      (decode (encode (oneLetter 1)).dropLast : Except DecodeError (Lexer Int64)) =
        .error (.encoding .malformed) ∧
      (decode (encode (oneLetter 99) ++ [0]) : Except DecodeError (Lexer Int64)) =
        .error (.encoding .trailing) := by
  have hshort : (encode (oneLetter 1)).take 5 <+: encode (oneLetter 1) := List.take_prefix ..
  have hlast : (encode (oneLetter 1)).dropLast <+: encode (oneLetter 1) := List.dropLast_prefix _
  exact ⟨refusesDamaged_int_nat_string.1.cut (oneLetter 1) rfl _ hshort (by decide +kernel),
    refusesDamaged_int_nat_string.1.cut (oneLetter 1) rfl _ hlast (by decide +kernel),
    refusesDamaged_int_nat_string.1.extended (oneLetter 99) rfl [0] (by decide +kernel)⟩

end Lexer

end Munch
