-- SUMMARY: Whatever bytes are read as a lexer, the lexer can be used without faults.
import Munch.Binary.Lexer
import Munch.Proofs.Lexer

/-! # Reading lexers

Reading checks that the bounds of every set ascend and that every automaton is
well formed. So bytes from anywhere are either refused or make a lexer that is
as good as one made from rules. -/

namespace Munch.Lexer

open Binary

variable {α κ : Type} [Coded α] [Ord κ] [Std.TransOrd κ] [Coded κ]

theorem wellFormed_of_decode {bytes : List UInt8} {l : Lexer α κ} (h : decode bytes = .ok l) :
    l.WellFormed := by
  unfold decode at h
  split at h
  · split at h
    · cases h
    · cases h
    · dsimp only at h
      split at h
      case isTrue hwell =>
        cases h
        exact hwell
      case isFalse => cases h
  · cases h

/-- Bytes are refused, or make a lexer whose automata have a longest match on every input, of at
least one character and within the input. With it every text can be split from any place and mode
on, however the modes follow each other, unless text is left in a mode that does not exist. -/
theorem decode_safe (bytes : List UInt8) :
    (∃ e, (decode bytes : Except DecodeError (Lexer α κ)) = .error e) ∨
      ∃ l : Lexer α κ, decode bytes = .ok l ∧
        (∀ m ∈ l.modes.entries, ∀ input, ∃ longest, m.2.longestMatch input = .ok longest ∧
          ∀ p ∈ longest, 1 ≤ p.1 ∧ p.1 ≤ input.length) ∧
        ∀ {τ : Type} (next : α → StateM τ κ) (mode : κ) (memory : τ) (text : String) (start : Nat),
          (∃ tokens last, l.lex next mode memory text start = .ok (tokens, last) ∧
              ∀ t ∈ tokens, start ≤ t.start ∧ t.start < t.stop ∧ t.stop ≤ text.length) ∨
            ∃ name, l.dfa? name = none ∧
              l.lex next mode memory text start = .error (.unknownMode name) := by
  cases hdecode : (decode bytes : Except DecodeError (Lexer α κ)) with
  | error e => exact .inl ⟨e, rfl⟩
  | ok l =>
    have h := wellFormed_of_decode hdecode
    refine .inr ⟨l, rfl, fun m hm => (h m hm).longestMatch_total, ?_⟩
    intro τ next mode memory text start
    exact h.lex_total next mode memory text start

/-- The bytes of a lexer with one mode, in which the letter `a` is a token. -/
def oneMode : List UInt8 := header ++ [1, 0, 0, 0, 2, 1, 2, 97, 98, 1, 0, 0, 1, 7]

theorem oneMode_safe : ∃ l : Lexer Nat Nat, decode oneMode = .ok l ∧
    ∀ (text : String) (start : Nat),
      (∃ tokens last, l.lex (fun code => pure code) 0 () text start = .ok (tokens, last) ∧
          ∀ t ∈ tokens, start ≤ t.start ∧ t.start < t.stop ∧ t.stop ≤ text.length) ∨
        ∃ name, l.dfa? name = none ∧
          l.lex (fun code => pure code) 0 () text start = .error (.unknownMode name) := by
  have hok : (decode oneMode : Except DecodeError (Lexer Nat Nat)).toOption.isSome = true := rfl
  rcases decode_safe (α := Nat) (κ := Nat) oneMode with ⟨e, he⟩ | ⟨l, hl, -, hlex⟩
  · rw [he] at hok
    cases hok
  · exact ⟨l, hl, hlex (fun code => pure code) 0 ()⟩

end Munch.Lexer
