-- SUMMARY: Tokens cover the text from the start on, and each is the longest match where it begins.
import Munch.Proofs.Lexer

/-! # Covering the text

A token ends where its longest match ends, or behind a character at which there
is no match, and the next one begins there. What one token adds to a covered
rest is said once; lexing with one automaton and lexing with modes are runs of
that step, which differ only in the automaton that is in force. -/

namespace Munch

variable {α κ τ : Type} {d : Dfa Char α} {text : String} {start stop : Nat}
  {tokens : List (Token α)}

/-! ## What tokens should be -/

/-- Each token begins where the one before it ends, and none is empty. -/
def Contiguous (start : Nat) (tokens : List (Token α)) (stop : Nat) : Prop :=
  match tokens with
  | [] => start = stop
  | t :: rest => t.start = start ∧ t.start < t.stop ∧ Contiguous t.stop rest stop

/-- The token holds the characters of its span. With a code it is the longest match of the automaton
where it begins; without one it is a character at which the automaton has no match. -/
def Token.IsMunch (d : Dfa Char α) (text : String) (t : Token α) : Prop :=
  t.text.toList = (text.toList.drop t.start).take (t.stop - t.start) ∧
    match t.code with
    | some code => d.longestMatch (text.toList.drop t.start) = .ok (some (t.stop - t.start, code))
    | none => t.stop = t.start + 1 ∧ d.longestMatch (text.toList.drop t.start) = .ok none

/-- The tokens cover the text from `start` on, each by the automaton that is in force after the
tokens before it. -/
structure Covers (inForce : List (Token α) → Option (Dfa Char α)) (text : String) (start : Nat)
    (tokens : List (Token α)) : Prop where
  behind : text.length ≤ start → tokens = []
  contiguous : start ≤ text.length → Contiguous start tokens text.length
  munch : ∀ before t after, tokens = before ++ t :: after →
    ∃ d, inForce before = some d ∧ t.IsMunch d text

/-! ## One token -/

theorem Dfa.WellFormed.isMunch_at (h : d.WellFormed) {c : Char} {rest : List Char} {more : Nat}
    {code : Option α} (hlead : d.lead c rest = .ok (more, code))
    (hinput : text.toList.drop start = c :: rest) :
    (Token.at start c rest more code).IsMunch d text := by
  have hspan : start + more + 1 - start = more + 1 := by omega
  obtain ⟨m, hm, hlength⟩ := h.longestMatch_total (c :: rest)
  rw [lead, hm] at hlead
  refine ⟨?_, ?_⟩
  · show (String.ofList (c :: rest.take more)).toList =
      (text.toList.drop start).take (start + more + 1 - start)
    rw [hspan, hinput, String.toList_ofList, List.take_succ_cons]
  · cases m with
    | none =>
      cases hlead
      refine ⟨rfl, ?_⟩
      show d.longestMatch (text.toList.drop start) = _
      rw [hinput, hm]
    | some p =>
      have hpos := (hlength p rfl).1
      cases hlead
      show d.longestMatch (text.toList.drop start) = .ok (some (start + (p.1 - 1) + 1 - start, p.2))
      have hp : start + (p.1 - 1) + 1 - start = p.1 := by omega
      rw [hinput, hm, hp]

/-- Behind the first token of the input comes the rest of the input. -/
theorem drop_behind {c : Char} {rest : List Char} (hinput : text.toList.drop start = c :: rest)
    (more : Nat) : text.toList.drop (start + more + 1) = rest.drop more := by
  have hstep := congrArg (List.drop (more + 1)) hinput
  rw [List.drop_drop, List.drop_succ_cons] at hstep
  rw [← hstep, Nat.add_assoc]

theorem length_of_drop {c : Char} {rest : List Char} (hinput : text.toList.drop start = c :: rest) :
    text.length = start + rest.length + 1 := by
  have hlength := congrArg List.length hinput
  rw [List.length_drop, String.length_toList, List.length_cons] at hlength
  omega

/-! ## Many tokens -/

namespace Covers

variable {inForce : List (Token α) → Option (Dfa Char α)}

theorem nil (hinput : text.toList.drop start = []) : Covers inForce text start [] where
  behind _ := rfl
  contiguous hle := by
    have hge := List.drop_eq_nil_iff.1 hinput
    rw [String.length_toList] at hge
    exact Nat.le_antisymm hle hge
  munch before t after hsplit := by cases before <;> cases hsplit

/-- A token in front of tokens that cover what comes behind it. -/
theorem cons (h : d.WellFormed) (hforce : inForce [] = some d) {c : Char} {rest : List Char}
    {more : Nat} {code : Option α} (hlead : d.lead c rest = .ok (more, code))
    (hmore : more ≤ rest.length) (hinput : text.toList.drop start = c :: rest)
    (hrest : Covers (fun before => inForce (.at start c rest more code :: before)) text
      (start + more + 1) tokens) :
    Covers inForce text start (.at start c rest more code :: tokens) where
  behind hle := by
    have := length_of_drop hinput
    omega
  contiguous _ := by
    have := length_of_drop hinput
    refine ⟨rfl, ?_, hrest.contiguous (by omega)⟩
    show start < start + more + 1
    omega
  munch before t after hsplit := by
    cases before with
    | nil =>
      cases hsplit
      exact ⟨d, hforce, h.isMunch_at hlead hinput⟩
    | cons first before =>
      obtain ⟨rfl, htail⟩ := List.cons.inj hsplit
      exact hrest.munch before t after htail

end Covers

/-- One automaton covers the text. -/
theorem Dfa.WellFormed.tokensFrom_covers (h : d.WellFormed) (text : String) (start : Nat) :
    ∃ tokens, d.tokensFrom start (text.toList.drop start) = .ok tokens ∧
      Covers (fun _ => some d) text start tokens := by
  induction hn : text.length - start using Nat.strongRecOn generalizing start with
  | ind n ih =>
    cases hinput : text.toList.drop start with
    | nil => exact ⟨[], by rw [tokensFrom], .nil hinput⟩
    | cons c rest =>
      have hlength := length_of_drop hinput
      obtain ⟨more, code, hlead, hmore⟩ := h.lead_total c rest
      obtain ⟨tokens, htokens, hcovers⟩ := ih _ (by omega) (start + more + 1) rfl
      rw [drop_behind hinput] at htokens
      refine ⟨.at start c rest more code :: tokens, ?_, .cons h rfl hlead hmore hinput hcovers⟩
      rw [tokensFrom, hlead, Checked.ok_bind]
      show (d.tokensFrom (start + more + 1) (rest.drop more) >>= _) = _
      rw [htokens]
      rfl

namespace Lexer

variable [Ord κ] {l : Lexer α κ}

/-- The mode after some tokens, and the state of `next`, which was asked about those with a code. -/
def modeAfter (next : α → StateM τ κ) (mode : κ) (memory : τ) (tokens : List (Token α)) : κ × τ :=
  tokens.foldl (fun m t => advance next m.1 m.2 t.code) (mode, memory)

/-- With modes, each token is made by the automaton of the mode after the tokens before it. -/
theorem WellFormed.lexFrom_covers (h : l.WellFormed) (next : α → StateM τ κ) (mode : κ)
    (memory : τ) (text : String) (start : Nat) {tokens : List (Token α)} {last : κ × τ}
    (hlex : l.lexFrom next mode memory start (text.toList.drop start) = .ok (tokens, last)) :
    Covers (fun before => l.dfa? (modeAfter next mode memory before).1) text start tokens ∧
      last = modeAfter next mode memory tokens := by
  induction hn : text.length - start using Nat.strongRecOn
    generalizing start mode memory tokens with
  | ind n ih =>
    obtain ⟨hinput, rfl, rfl⟩ | ⟨c, rest, d, more, code, tokens', hinput, hd, hlead, rfl, hrest⟩ :=
      lexFrom_eq_ok hlex
    · exact ⟨.nil hinput, rfl⟩
    · have hlength := length_of_drop hinput
      have hmore := (h.of_dfa? hd).lead_le hlead
      rw [← drop_behind hinput] at hrest
      obtain ⟨hcovers, hlast⟩ := ih _ (by omega) _ _ (start + more + 1) hrest rfl
      exact ⟨.cons (h.of_dfa? hd) hd hlead hmore hinput hcovers, hlast⟩

end Lexer

/-! ## Texts -/

/-- From any place on, one well-formed automaton covers the text. A lexer of such automata ends with
text left in a mode that it does not have, or covers the text by the automata of the modes in force,
however the modes follow each other, and ends in the mode after the last token. -/
theorem lexing_covers [Ord κ] (text : String) (start : Nat) :
    (∀ d : Dfa Char α, d.WellFormed →
      ∃ tokens, d.tokens text start = .ok tokens ∧ Covers (fun _ => some d) text start tokens) ∧
    ∀ l : Lexer α κ, l.WellFormed →
      ∀ {τ : Type} (next : α → StateM τ κ) (mode : κ) (memory : τ),
        (∃ name, l.dfa? name = none ∧
          l.lex next mode memory text start = .error (.unknownMode name)) ∨
        ∃ tokens, l.lex next mode memory text start =
            .ok (tokens, Lexer.modeAfter next mode memory tokens) ∧
          Covers (fun before => l.dfa? (Lexer.modeAfter next mode memory before).1)
            text start tokens := by
  refine ⟨fun d h => h.tokensFrom_covers text start, ?_⟩
  intro l h τ next mode memory
  rcases h.lex_total next mode memory text start with ⟨tokens, last, hlex, -⟩ | hunknown
  · obtain ⟨hcovers, rfl⟩ := h.lexFrom_covers next mode memory text start hlex
    exact .inr ⟨tokens, hlex, hcovers⟩
  · exact .inl hunknown

/-- An automaton that matches a quote. -/
def Dfa.quote (code : Nat) : Dfa Char Nat :=
  ⟨0, none, #[⟨[(.only '"', 1)], none⟩, ⟨[], some code⟩]⟩

/-- A quote leads from each of two modes to the other. -/
def Lexer.quoteModes : Lexer Nat Nat := ⟨.ofList [(0, .quote 1), (1, .quote 0)]⟩

theorem Lexer.quoteModes_covers :
    let next (code : Nat) : StateM Unit Nat := pure code
    ∃ tokens, quoteModes.lex next 0 () "a\"b\"" 0 = .ok (tokens, modeAfter next 0 () tokens) ∧
      Covers (fun before => quoteModes.dfa? (modeAfter next 0 () before).1) "a\"b\"" 0 tokens := by
  intro next
  have hwell : quoteModes.WellFormed := by decide +kernel
  have hok : (quoteModes.lex next 0 () "a\"b\"" 0).toBool = true := by decide +kernel
  rcases (lexing_covers "a\"b\"" 0).2 quoteModes hwell next 0 () with ⟨name, -, herror⟩ | hcovers
  · rw [herror] at hok
    cases hok
  · exact hcovers

end Munch
