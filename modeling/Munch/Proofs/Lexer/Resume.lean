-- SUMMARY: Lexing goes on from behind any token as it would have, whatever lies in front.
import Munch.Proofs.Lexer.Cover

/-! # Cutting and resuming

Nothing but the place, the mode and the state of the callback is handed on from
one token to the next, and nothing in front of the place is looked at. So lexing
can be cut behind any token and taken up there again, and what lies in front of
the start can be left out, which only moves the places of the tokens. -/

namespace Munch

variable {α κ τ : Type}

/-! ## Places -/

/-- The place behind some tokens, or where they should begin if there are none. -/
def stopAfter (start : Nat) (tokens : List (Token α)) : Nat :=
  tokens.foldl (fun _ t => t.stop) start

/-- The same token in a text with `n` more characters in front. -/
def Token.shift (n : Nat) (t : Token α) : Token α :=
  { t with start := t.start + n, stop := t.stop + n }

theorem Token.shift_at (n pos : Nat) (c : Char) (rest : List Char) (more : Nat)
    (code : Option α) :
    (Token.at pos c rest more code).shift n = .at (pos + n) c rest more code := by
  have hstop : pos + more + 1 + n = pos + n + more + 1 := by omega
  simp only [shift, Token.at, hstop]

namespace Lexer

variable [Ord κ] {l : Lexer α κ} {next : α → StateM τ κ} {mode : κ} {memory : τ}

/-! ## What lies in front -/

/-- The tokens of an input do not depend on the place where it begins, only their places do. -/
theorem lexFrom_add (n pos : Nat) (input : List Char) :
    l.lexFrom next mode memory (pos + n) input =
      (fun r => (r.1.map (Token.shift n), r.2)) <$> l.lexFrom next mode memory pos input := by
  induction hlength : input.length using Nat.strongRecOn generalizing input mode memory pos with
  | ind length ih =>
    subst hlength
    cases input with
    | nil =>
      rw [lexFrom, lexFrom]
      rfl
    | cons c rest =>
      cases hd : l.dfa? mode with
      | none =>
        rw [lexFrom, lexFrom, hd]
        rfl
      | some d =>
        rw [lexFrom_cons hd, lexFrom_cons hd, map_bind]
        congr 1
        funext r
        have hshorter : (rest.drop r.1).length < (c :: rest).length := by
          rw [List.length_drop, List.length_cons]
          omega
        have hplace : pos + n + r.1 + 1 = pos + r.1 + 1 + n := by omega
        rw [hplace, ih _ hshorter (pos + r.1 + 1) (rest.drop r.1) rfl, Functor.map_map,
          Functor.map_map]
        simp only [List.map_cons, Token.shift_at]

/-! ## What comes behind -/

/-- After the first token lexing goes on behind it, in the mode that it leads to. -/
theorem lex_uncons {text : String} {start : Nat} {t : Token α} {tokens : List (Token α)}
    {last : κ × τ} (h : l.lex next mode memory text start = .ok (t :: tokens, last)) :
    l.lex next (advance next mode memory t.code).1 (advance next mode memory t.code).2 text
      t.stop = .ok (tokens, last) := by
  rw [lex] at h ⊢
  obtain ⟨-, hnil, -⟩ | ⟨c, rest, d, more, code, tokens', hinput, -, -, heq, hrest⟩ :=
    lexFrom_eq_ok h
  · cases hnil
  · cases heq
    show l.lexFrom next _ _ (start + more + 1) (text.toList.drop (start + more + 1)) = _
    rw [drop_behind hinput]
    exact hrest

/-- After any tokens lexing goes on behind them, in the mode that they lead to. -/
theorem lex_append {text : String} {start : Nat} {before after : List (Token α)} {last : κ × τ}
    (h : l.lex next mode memory text start = .ok (before ++ after, last)) :
    l.lex next (modeAfter next mode memory before).1 (modeAfter next mode memory before).2 text
      (stopAfter start before) = .ok (after, last) := by
  induction before generalizing mode memory start with
  | nil => exact h
  | cons t before ih => exact ih (lex_uncons h)

/-- Behind the first `k` tokens lexing goes on with the others, in the mode and with the state of
`next` after these tokens, and ends in the same mode. A `next` that looks at codes only has no state.
Without the text in front of the start there are the same tokens, with places that count from the
start. -/
theorem lex_resumes (l : Lexer α κ) (next : α → StateM τ κ) (mode : κ) (memory : τ)
    (text : String) (start : Nat) :
    (∀ tokens last, l.lex next mode memory text start = .ok (tokens, last) → ∀ k,
      l.lex next (modeAfter next mode memory (tokens.take k)).1
          (modeAfter next mode memory (tokens.take k)).2 text (stopAfter start (tokens.take k)) =
        .ok (tokens.drop k, last)) ∧
    l.lex next mode memory text start =
      (fun r => (r.1.map (Token.shift start), r.2)) <$>
        l.lex next mode memory (String.ofList (text.toList.drop start)) 0 := by
  constructor
  · intro tokens last h k
    rw [← List.take_append_drop k tokens] at h
    exact lex_append h
  · rw [lex, lex, String.toList_ofList, List.drop_zero, ← lexFrom_add, Nat.zero_add]

/-- The cut lies inside the quotes. -/
theorem quoteModes_resumes :
    let next (code : Nat) : StateM Unit Nat := pure code
    quoteModes.lex next 0 () "a\"b\"c" 1 =
        .ok ([⟨"\"", some 1, 1, 2⟩, ⟨"b", none, 2, 3⟩, ⟨"\"", some 0, 3, 4⟩, ⟨"c", none, 4, 5⟩],
          0, ()) ∧
      quoteModes.lex next 1 () "a\"b\"c" 3 =
        .ok ([⟨"\"", some 0, 3, 4⟩, ⟨"c", none, 4, 5⟩], 0, ()) := by
  intro next
  have hok : (quoteModes.lex next 0 () "a\"b\"c" 1).toOption =
      some ([⟨"\"", some 1, 1, 2⟩, ⟨"b", none, 2, 3⟩, ⟨"\"", some 0, 3, 4⟩, ⟨"c", none, 4, 5⟩],
        0, ()) := by
    decide +kernel
  cases hlex : quoteModes.lex next 0 () "a\"b\"c" 1 with
  | error e =>
    rw [hlex] at hok
    cases hok
  | ok r =>
    rw [hlex] at hok
    cases hok
    exact ⟨rfl, (lex_resumes quoteModes next 0 () "a\"b\"c" 1).1 _ _ hlex 2⟩

end Lexer

end Munch
