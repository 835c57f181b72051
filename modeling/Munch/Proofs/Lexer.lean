-- SUMMARY: Lexers with well-formed automata split every text, unless a mode is missing.
import Munch.Lexer
import Munch.Proofs.Dfa.Steps

/-! # Lexers

If the automata of a lexer are well formed, lexing has no faults: there is
always a next token, of at least one character and within the text, as long as
the lexer has the mode that comes next. What a single turn of lexing does is said
for all lexers, forwards (`lexFrom_cons`) and backwards (`lexFrom_eq_ok`). -/

namespace Munch

variable {α κ τ : Type} [Ord κ]

theorem Dfa.WellFormed.lead_total {d : Dfa Char α} (h : d.WellFormed) (c : Char)
    (rest : List Char) :
    ∃ more code, d.lead c rest = .ok (more, code) ∧ more ≤ rest.length := by
  obtain ⟨m, hm, hlength⟩ := h.longestMatch_total (c :: rest)
  rw [lead, hm]
  cases m with
  | none => exact ⟨0, none, rfl, Nat.zero_le _⟩
  | some p =>
    have hp := (hlength p rfl).2
    rw [List.length_cons] at hp
    exact ⟨p.1 - 1, some p.2, rfl, by omega⟩

theorem Dfa.WellFormed.lead_le {d : Dfa Char α} (h : d.WellFormed) {c : Char} {rest : List Char}
    {more : Nat} {code : Option α} (hlead : d.lead c rest = .ok (more, code)) :
    more ≤ rest.length := by
  obtain ⟨more', code', hlead', hmore⟩ := h.lead_total c rest
  cases hlead.symm.trans hlead'
  exact hmore

namespace Lexer

variable {l : Lexer α κ}

theorem WellFormed.of_dfa? (h : l.WellFormed) {mode : κ} {d : Dfa Char α}
    (hd : l.dfa? mode = some d) : d.WellFormed := by
  obtain ⟨m, hm, rfl⟩ := Option.map_eq_some_iff.1 hd
  exact h m (List.mem_of_find?_eq_some hm)

/-- One token, then those of the rest, if the mode has an automaton. -/
theorem lexFrom_cons {next : α → StateM τ κ} {mode : κ} {memory : τ} {pos : Nat} {c : Char}
    {rest : List Char} {d : Dfa Char α} (hd : l.dfa? mode = some d) :
    l.lexFrom next mode memory pos (c :: rest) =
      (d.lead c rest).mapError .fault >>= fun r =>
        (fun s => (Token.at pos c rest r.1 r.2 :: s.1, s.2)) <$>
          l.lexFrom next (advance next mode memory r.2).1 (advance next mode memory r.2).2
            (pos + r.1 + 1) (rest.drop r.1) := by
  rw [lexFrom, hd]
  rfl

/-- Lexing that succeeds has nothing left to do, or makes a token and succeeds with the rest. -/
theorem lexFrom_eq_ok {next : α → StateM τ κ} {mode : κ} {memory : τ} {pos : Nat}
    {input : List Char} {tokens : List (Token α)} {last : κ × τ}
    (h : l.lexFrom next mode memory pos input = .ok (tokens, last)) :
    (input = [] ∧ tokens = [] ∧ last = (mode, memory)) ∨
      ∃ c rest d more code tokens', input = c :: rest ∧ l.dfa? mode = some d ∧
        d.lead c rest = .ok (more, code) ∧ tokens = .at pos c rest more code :: tokens' ∧
        l.lexFrom next (advance next mode memory code).1 (advance next mode memory code).2
          (pos + more + 1) (rest.drop more) = .ok (tokens', last) := by
  cases input with
  | nil =>
    rw [lexFrom] at h
    cases h
    exact .inl ⟨rfl, rfl, rfl⟩
  | cons c rest =>
    cases hd : l.dfa? mode with
    | none =>
      rw [lexFrom, hd] at h
      cases h
    | some d =>
      rw [lexFrom_cons hd] at h
      obtain ⟨⟨more, code⟩, hlead, h⟩ := Checked.bind_eq_ok h
      obtain ⟨⟨tokens', last'⟩, hrest, heq⟩ := Checked.map_eq_ok h
      cases heq
      have hlead := Checked.mapError_eq_ok hlead
      exact .inr ⟨c, rest, d, more, code, tokens', rfl, rfl, hlead, rfl, hrest⟩

/-- If the automaton is well formed, the first token has no faults. -/
theorem WellFormed.lexFrom_cons (h : l.WellFormed) (next : α → StateM τ κ) {mode : κ} (memory : τ)
    (pos : Nat) (c : Char) (rest : List Char) {d : Dfa Char α} (hd : l.dfa? mode = some d) :
    ∃ more code, d.lead c rest = .ok (more, code) ∧ more ≤ rest.length ∧
      l.lexFrom next mode memory pos (c :: rest) =
        (l.lexFrom next (advance next mode memory code).1 (advance next mode memory code).2
          (pos + more + 1) (rest.drop more)).map
            fun r => (.at pos c rest more code :: r.1, r.2) := by
  obtain ⟨more, code, hlead, hmore⟩ := (h.of_dfa? hd).lead_total c rest
  refine ⟨more, code, hlead, hmore, ?_⟩
  rw [Lexer.lexFrom_cons hd, hlead]
  rfl

/-- Lexing ends in tokens that are not empty and lie within the input, or with text left in a mode
that the lexer does not have. -/
theorem WellFormed.lexFrom_total (h : l.WellFormed) (next : α → StateM τ κ) (mode : κ) (memory : τ)
    (pos : Nat) (input : List Char) :
    (∃ tokens last, l.lexFrom next mode memory pos input = .ok (tokens, last) ∧
        ∀ t ∈ tokens, pos ≤ t.start ∧ t.start < t.stop ∧ t.stop ≤ pos + input.length) ∨
      ∃ name, l.dfa? name = none ∧
        l.lexFrom next mode memory pos input = .error (.unknownMode name) := by
  induction hn : input.length using Nat.strongRecOn generalizing input mode memory pos with
  | ind n ih =>
    cases input with
    | nil =>
      rw [lexFrom]
      exact .inl ⟨[], (mode, memory), rfl, List.forall_mem_nil _⟩
    | cons c rest =>
      cases hd : l.dfa? mode with
      | none =>
        rw [lexFrom, hd]
        exact .inr ⟨mode, hd, rfl⟩
      | some d =>
        obtain ⟨more, code, -, hmore, hstep⟩ := h.lexFrom_cons next memory pos c rest hd
        rw [hstep]
        rw [List.length_cons] at hn
        have hlength : (rest.drop more).length = rest.length - more := List.length_drop
        rcases ih (rest.length - more) (by omega) _ _ (pos + more + 1) (rest.drop more) hlength with
          ⟨tokens, last, hrest, htokens⟩ | ⟨name, hname, hrest⟩
        · refine .inl ⟨_, _, by rw [hrest]; rfl, List.forall_mem_cons.2 ⟨?_, fun t ht => ?_⟩⟩
          · refine ⟨Nat.le_refl _, ?_, ?_⟩ <;> simp only [Token.at] <;> omega
          · have := htokens t ht
            omega
        · exact .inr ⟨name, hname, by rw [hrest]; rfl⟩

theorem WellFormed.lex_total (h : l.WellFormed) (next : α → StateM τ κ) (mode : κ) (memory : τ)
    (text : String) (start : Nat) :
    (∃ tokens last, l.lex next mode memory text start = .ok (tokens, last) ∧
        ∀ t ∈ tokens, start ≤ t.start ∧ t.start < t.stop ∧ t.stop ≤ text.length) ∨
      ∃ name, l.dfa? name = none ∧
        l.lex next mode memory text start = .error (.unknownMode name) := by
  refine (h.lexFrom_total next mode memory start (text.toList.drop start)).imp_left ?_
  rintro ⟨tokens, last, hlex, htokens⟩
  refine ⟨tokens, last, hlex, fun t ht => ?_⟩
  have hlength : (text.toList.drop start).length = text.length - start := by
    rw [List.length_drop, String.length_toList]
  have := htokens t ht
  omega

end Lexer

end Munch
