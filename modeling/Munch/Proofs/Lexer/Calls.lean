-- SUMMARY: What lexing asks its callback, which mode is in force, and when a mode is missing.
import Munch.Proofs.Lexer.Resume

/-! # Calls of the callback

The callback is asked about every token with a code, and its last answer is the
mode in force. To see this also if lexing fails, lexing is watched: the state of
the callback is kept however lexing ends, and a callback notes in it what it was
asked and what it answered. What lexing should do is said step by step, without
the functions that do it: a step makes one token with the automaton of the mode
in force, and asks once if the token has a code. -/

namespace Munch

variable {α κ τ : Type}

/-- The automaton takes from the text what the token holds. -/
theorem Dfa.WellFormed.lead_of_isMunch {d : Dfa Char α} (h : d.WellFormed) {t : Token α}
    {text : String} (ht : t.IsMunch d text) {c : Char} {rest : List Char}
    (hinput : text.toList.drop t.start = c :: rest) :
    ∃ more, d.lead c rest = .ok (more, t.code) ∧ t = .at t.start c rest more t.code := by
  obtain ⟨held, code, start, stop⟩ := t
  obtain ⟨hheld, hmunch⟩ := ht
  simp only [hinput] at hheld hmunch
  have heq : ∀ more, stop = start + more + 1 →
      (⟨held, code, start, stop⟩ : Token α) = .at start c rest more code := by
    rintro more rfl
    have hspan : start + more + 1 - start = more + 1 := by omega
    rw [hspan, List.take_succ_cons] at hheld
    rw [Token.at, ← hheld, String.ofList_toList]
  cases code with
  | none =>
    obtain ⟨hstop, hmatch⟩ := hmunch
    refine ⟨0, ?_, heq 0 hstop⟩
    rw [lead, hmatch]
    rfl
  | some code =>
    obtain ⟨m, hm, hlength⟩ := h.longestMatch_total (c :: rest)
    cases hm.symm.trans hmunch
    have hpos := (hlength _ rfl).1
    refine ⟨stop - start - 1, ?_, heq _ (by omega)⟩
    rw [lead, hmunch]
    rfl

namespace Lexer

/-- How lexing ends, and the last state of `next`. -/
abbrev Watched (α κ τ : Type) := Except (LexError κ) (List (Token α) × κ) × τ

/-- The same with more tokens in front. -/
def Watched.prepend (tokens : List (Token α)) (r : Watched α κ τ) : Watched α κ τ :=
  (r.1.map fun s => (tokens ++ s.1, s.2), r.2)

theorem Watched.prepend_nil (r : Watched α κ τ) : r.prepend [] = r := by
  obtain ⟨e | s, memory⟩ := r <;> rfl

theorem Watched.prepend_prepend (tokens tokens' : List (Token α)) (r : Watched α κ τ) :
    (r.prepend tokens').prepend tokens = r.prepend (tokens ++ tokens') := by
  obtain ⟨e | s, memory⟩ := r
  · rfl
  · simp only [prepend, Except.map, List.append_assoc]

/-- The callback with a list of what it was asked so far, and what it answered. -/
def noted (next : α → StateM τ κ) (code : α) : StateM (τ × List (α × κ)) κ := do
  let (memory, calls) ← get
  let (mode, memory) := (next code).run memory
  set (memory, calls ++ [(code, mode)])
  return mode

theorem exists_advance_noted (next : α → StateM τ κ) (mode : κ) (memory : τ)
    (calls : List (α × κ)) (code : Option α) :
    ∃ calls', advance (noted next) mode (memory, calls) code =
      ((advance next mode memory code).1, (advance next mode memory code).2, calls') := by
  cases code with
  | none => exact ⟨calls, rfl⟩
  | some code => exact ⟨_, rfl⟩

/-- What happened so far: the tokens, the calls of the callback with its answers, and its state. -/
structure Progress (α κ τ : Type) where
  tokens : List (Token α)
  calls : List (α × κ)
  memory : τ

namespace Progress

/-- The place behind the tokens. -/
def pos (p : Progress α κ τ) (start : Nat) : Nat := stopAfter start p.tokens

/-- The mode in force: the last answer of the callback, or the first mode if it was not asked. -/
def mode (p : Progress α κ τ) (first : κ) : κ := (p.calls.getLast?.map Prod.snd).getD first

/-- A token is made, and the callback is asked about its code, if it has one. -/
def add (p : Progress α κ τ) (next : α → StateM τ κ) (t : Token α) : Progress α κ τ :=
  match t.code with
  | none => { p with tokens := p.tokens ++ [t] }
  | some code =>
    ⟨p.tokens ++ [t], p.calls ++ [(code, ((next code).run p.memory).1)],
      ((next code).run p.memory).2⟩

theorem pos_add (p : Progress α κ τ) (next : α → StateM τ κ) (t : Token α) (start : Nat) :
    (p.add next t).pos start = t.stop := by
  rw [pos, add]
  split <;> exact List.foldl_append

theorem tokens_add (p : Progress α κ τ) (next : α → StateM τ κ) (t : Token α) :
    (p.add next t).tokens = p.tokens ++ [t] := by
  rw [add]
  split <;> rfl

/-- One call is added for a token with a code, and none for one without. -/
theorem calls_add (p : Progress α κ τ) (next : α → StateM τ κ) (t : Token α) :
    (p.add next t).calls.map Prod.fst = p.calls.map Prod.fst ++ t.code.toList := by
  rw [add]
  split
  case h_1 hcode => simp [hcode]
  case h_2 code hcode => simp [hcode]

/-- A callback that notes what it is asked goes on in step with the calls. -/
theorem advance_noted (p : Progress α κ τ) (next : α → StateM τ κ) (t : Token α) (first : κ) :
    advance (noted next) (p.mode first) (p.memory, p.calls) t.code =
      ((p.add next t).mode first, (p.add next t).memory, (p.add next t).calls) := by
  rw [add]
  cases t.code with
  | none => rfl
  | some code =>
    have hmode : (p.calls ++ [(code, ((next code).run p.memory).1)]).getLast?.map Prod.snd =
        some ((next code).run p.memory).1 := by
      rw [List.getLast?_concat]
      rfl
    simp only [mode, hmode]
    rfl

end Progress

variable [Ord κ] {l : Lexer α κ} {next : α → StateM τ κ} {mode : κ} {memory : τ} {text : String}
  {start pos : Nat}

/-! ## Watched lexing -/

/-- Lexing that keeps the state of `next` in errors. -/
def watchFrom (l : Lexer α κ) (next : α → StateM τ κ) (mode : κ) (memory : τ) (pos : Nat) :
    List Char → Watched α κ τ
  | [] => (.ok ([], mode), memory)
  | c :: rest =>
    match l.dfa? mode with
    | none => (.error (.unknownMode mode), memory)
    | some d =>
      match d.lead c rest with
      | .error f => (.error (.fault f), memory)
      | .ok (more, code) =>
        let (mode, memory) := advance next mode memory code
        (l.watchFrom next mode memory (pos + more + 1) (rest.drop more)).prepend
          [.at pos c rest more code]
termination_by input => input.length
decreasing_by simp only [List.length_drop, List.length_cons]; omega

def watch (l : Lexer α κ) (next : α → StateM τ κ) (mode : κ) (memory : τ) (text : String)
    (start : Nat) : Watched α κ τ :=
  l.watchFrom next mode memory start (text.toList.drop start)

theorem watchFrom_cons {c : Char} {rest : List Char} {d : Dfa Char α} {more : Nat}
    {code : Option α} (hd : l.dfa? mode = some d) (hlead : d.lead c rest = .ok (more, code)) :
    l.watchFrom next mode memory pos (c :: rest) =
      (l.watchFrom next (advance next mode memory code).1 (advance next mode memory code).2
        (pos + more + 1) (rest.drop more)).prepend [.at pos c rest more code] := by
  rw [watchFrom, hd]
  simp only [hlead]

/-- Lexing forgets in errors what is kept if it is watched, and is the same otherwise. -/
theorem lexFrom_eq_watchFrom (input : List Char) :
    l.lexFrom next mode memory pos input =
      (fun s => (s.1, s.2, (l.watchFrom next mode memory pos input).2)) <$>
        (l.watchFrom next mode memory pos input).1 := by
  fun_induction l.watchFrom next mode memory pos input with
  | case1 mode memory pos =>
    rw [lexFrom]
    rfl
  | case2 mode memory pos c rest hd =>
    rw [lexFrom, hd]
    rfl
  | case3 mode memory pos c rest d hd f hlead =>
    rw [lexFrom_cons hd, hlead]
    rfl
  | case4 mode memory pos c rest d hd more code hlead mode' memory' hadvance ih =>
    rw [lexFrom_cons hd, hlead]
    show _ <$> l.lexFrom next (advance next mode memory code).1 (advance next mode memory code).2
      (pos + more + 1) (rest.drop more) = _
    rw [hadvance, ih]
    obtain ⟨e | s, last⟩ := l.watchFrom next mode' memory' (pos + more + 1) (rest.drop more) <;> rfl

/-- To note what is asked changes nothing else. -/
theorem watchFrom_noted (calls : List (α × κ)) (input : List Char) :
    ∃ calls', l.watchFrom (noted next) mode (memory, calls) pos input =
      ((l.watchFrom next mode memory pos input).1,
        (l.watchFrom next mode memory pos input).2, calls') := by
  fun_induction l.watchFrom next mode memory pos input generalizing calls with
  | case1 mode memory pos => exact ⟨calls, by rw [watchFrom]⟩
  | case2 mode memory pos c rest hd => exact ⟨calls, by rw [watchFrom, hd]⟩
  | case3 mode memory pos c rest d hd f hlead =>
    refine ⟨calls, ?_⟩
    rw [watchFrom, hd]
    simp only [hlead]
  | case4 mode memory pos c rest d hd more code hlead mode' memory' hadvance ih =>
    -- Only the list of calls differs, and nothing that is lexed depends on it.
    obtain ⟨calls₁, hnoted⟩ := exists_advance_noted next mode memory calls code
    rw [hadvance] at hnoted
    obtain ⟨calls', hrest⟩ := ih calls₁
    refine ⟨calls', ?_⟩
    rw [watchFrom_cons hd hlead, hnoted, hrest]
    rfl

theorem watch_of_length_le (h : text.length ≤ pos) :
    l.watch next mode memory text pos = (.ok ([], mode), memory) := by
  rw [watch, List.drop_eq_nil_of_le (by rwa [String.length_toList]), watchFrom]

theorem exists_cons_of_lt (h : pos < text.length) :
    ∃ c rest, text.toList.drop pos = c :: rest := by
  rw [← String.length_toList] at h
  exact ⟨_, _, List.drop_eq_getElem_cons h⟩

theorem watch_of_missing (h : pos < text.length) (hd : l.dfa? mode = none) :
    l.watch next mode memory text pos = (.error (.unknownMode mode), memory) := by
  obtain ⟨c, rest, hinput⟩ := exists_cons_of_lt h
  rw [watch, hinput, watchFrom, hd]

/-! ## Steps -/

/-- Text is left at `pos`, and the token is what the automaton of the mode makes of it. -/
structure Makes (l : Lexer α κ) (text : String) (pos : Nat) (mode : κ) (t : Token α) : Prop where
  left : pos < text.length
  begins : t.start = pos
  munch : ∃ d, l.dfa? mode = some d ∧ t.IsMunch d text

/-- What can have happened to a text: one token after the other, each made in the mode in force. -/
inductive Reaches (l : Lexer α κ) (next : α → StateM τ κ) (mode : κ) (memory : τ) (text : String)
    (start : Nat) : Progress α κ τ → Prop where
  | start : Reaches l next mode memory text start ⟨[], [], memory⟩
  | token {p : Progress α κ τ} {t : Token α} : Reaches l next mode memory text start p →
      l.Makes text (p.pos start) (p.mode mode) t →
      Reaches l next mode memory text start (p.add next t)

theorem WellFormed.exists_makes (h : l.WellFormed) (hpos : pos < text.length) {d : Dfa Char α}
    (hd : l.dfa? mode = some d) : ∃ t, l.Makes text pos mode t ∧ pos < t.stop := by
  obtain ⟨c, rest, hinput⟩ := exists_cons_of_lt hpos
  obtain ⟨more, code, hlead, -⟩ := (h.of_dfa? hd).lead_total c rest
  refine ⟨.at pos c rest more code, ⟨hpos, rfl, d, hd, ?_⟩, ?_⟩
  · exact (h.of_dfa? hd).isMunch_at hlead hinput
  · show pos < pos + more + 1
    omega

/-- The token that a step makes is the one that lexing makes, and lexing goes on behind it. -/
theorem Makes.watch_eq {t : Token α} (ht : l.Makes text pos mode t) (h : l.WellFormed) :
    l.watch next mode memory text pos =
      (l.watch next (advance next mode memory t.code).1 (advance next mode memory t.code).2 text
        t.stop).prepend [t] := by
  obtain ⟨hpos, hstart, d, hd, hmunch⟩ := ht
  obtain ⟨c, rest, hinput⟩ := exists_cons_of_lt hpos
  obtain ⟨more, hlead, ht⟩ := (h.of_dfa? hd).lead_of_isMunch hmunch (hstart ▸ hinput)
  have hstop : t.stop = pos + more + 1 := by
    rw [ht, ← hstart]
    rfl
  rw [watch, hinput, watchFrom_cons hd hlead, watch, hstop, drop_behind hinput, ← hstart, ← ht]

namespace Reaches

variable {p : Progress α κ τ}

/-- The callback was asked about the tokens with codes, once each, from left to right. -/
theorem calls_eq (hp : l.Reaches next mode memory text start p) :
    p.calls.map Prod.fst = p.tokens.filterMap Token.code := by
  induction hp with
  | start => rfl
  | @token p t _ _ ih =>
    rw [p.calls_add, p.tokens_add, ih, List.filterMap_append]
    cases hcode : t.code <;> simp [hcode]

/-- Whatever lexing would do from the start, it does from here on, with the tokens in front. -/
theorem watch_eq (hp : l.Reaches next mode memory text start p) (h : l.WellFormed) :
    l.watch (noted next) mode (memory, []) text start =
      (l.watch (noted next) (p.mode mode) (p.memory, p.calls) text (p.pos start)).prepend
        p.tokens := by
  -- The last token of the steps is the first one that watching makes behind those before it.
  induction hp with
  | start => exact (Watched.prepend_nil _).symm
  | @token p t _ ht ih =>
    rw [ih, ht.watch_eq h, p.advance_noted, Watched.prepend_prepend, p.tokens_add, p.pos_add]

/-- Steps lead to the end of the text, or to text in a mode that is missing. -/
theorem exists_last (hp : l.Reaches next mode memory text start p) (h : l.WellFormed) :
    ∃ q, l.Reaches next mode memory text start q ∧
      (text.length ≤ q.pos start ∨
        q.pos start < text.length ∧ l.dfa? (q.mode mode) = none) := by
  induction hn : text.length - p.pos start using Nat.strongRecOn generalizing p with
  | ind n ih =>
    by_cases hpos : p.pos start < text.length
    · cases hd : l.dfa? (p.mode mode) with
      | none => exact ⟨p, hp, .inr ⟨hpos, hd⟩⟩
      | some d =>
        obtain ⟨t, ht, hstop⟩ := h.exists_makes hpos hd
        -- A token is never empty, so less of the text is left behind it.
        have hless : text.length - (p.add next t).pos start < n := by
          rw [p.pos_add]
          omega
        exact ih _ hless (hp.token ht) rfl
    · exact ⟨p, hp, .inl (Nat.le_of_not_lt hpos)⟩

theorem watch_last (hp : l.Reaches next mode memory text start p) (h : l.WellFormed)
    (hend : text.length ≤ p.pos start) :
    l.watch (noted next) mode (memory, []) text start =
      (.ok (p.tokens, p.mode mode), p.memory, p.calls) := by
  rw [hp.watch_eq h, watch_of_length_le hend]
  show (Except.ok (p.tokens ++ [], p.mode mode), _) = _
  rw [List.append_nil]

theorem watch_missing (hp : l.Reaches next mode memory text start p) (h : l.WellFormed)
    (hpos : p.pos start < text.length) (hd : l.dfa? (p.mode mode) = none) :
    l.watch (noted next) mode (memory, []) text start =
      (.error (.unknownMode (p.mode mode)), p.memory, p.calls) := by
  rw [hp.watch_eq h, watch_of_missing hpos hd]
  rfl

end Reaches

/-! ## Lexing -/

/-- Lexing ends as watched lexing does with a callback that notes what it is asked. -/
theorem lex_eq_of_watch {result : Except (LexError κ) (List (Token α) × κ)} {last : τ}
    {calls : List (α × κ)}
    (h : l.watch (noted next) mode (memory, []) text start = (result, last, calls)) :
    l.lex next mode memory text start = (fun s => (s.1, s.2, last)) <$> result := by
  obtain ⟨calls', hnoted⟩ : ∃ calls',
      l.watch (noted next) mode (memory, []) text start =
        ((l.watch next mode memory text start).1, (l.watch next mode memory text start).2, calls') :=
    watchFrom_noted [] _
  rw [hnoted] at h
  cases h
  exact lexFrom_eq_watchFrom _

theorem Reaches.lex_last {p : Progress α κ τ} (hp : l.Reaches next mode memory text start p)
    (h : l.WellFormed) (hend : text.length ≤ p.pos start) :
    l.lex next mode memory text start = .ok (p.tokens, p.mode mode, p.memory) :=
  lex_eq_of_watch (hp.watch_last h hend)

theorem Reaches.lex_missing {p : Progress α κ τ} (hp : l.Reaches next mode memory text start p)
    (h : l.WellFormed) (hpos : p.pos start < text.length) (hd : l.dfa? (p.mode mode) = none) :
    l.lex next mode memory text start = .error (.unknownMode (p.mode mode)) :=
  lex_eq_of_watch (hp.watch_missing h hpos hd)

/-- Lexing fails with a mode exactly if it comes into force with text left, and is missing. -/
theorem WellFormed.lex_eq_error_iff (h : l.WellFormed) {name : κ} :
    l.lex next mode memory text start = .error (.unknownMode name) ↔
      ∃ p, l.Reaches next mode memory text start p ∧ p.pos start < text.length ∧
        p.mode mode = name ∧ l.dfa? name = none := by
  constructor
  · intro herror
    have hstart : l.Reaches next mode memory text start ⟨[], [], memory⟩ := .start
    obtain ⟨p, hp, hend | ⟨hpos, hd⟩⟩ := hstart.exists_last h
    · cases (hp.lex_last h hend).symm.trans herror
    · cases (hp.lex_missing h hpos hd).symm.trans herror
      exact ⟨p, hp, hpos, rfl, hd⟩
  · rintro ⟨p, hp, hpos, rfl, hd⟩
    exact hp.lex_missing h hpos hd

/-- Steps lead from the start to where lexing ends. The callback was asked about the tokens with
codes that were made, once each and in their order, and about nothing else. Lexing gives these tokens
and the mode in force at the end of the text, whether the lexer has this mode or not; it fails with
the mode in force exactly if the lexer does not have it and text is left. -/
theorem lex_switches (l : Lexer α κ) (h : l.WellFormed) (next : α → StateM τ κ) (mode : κ)
    (memory : τ) (text : String) (start : Nat) :
    (∃ p, l.Reaches next mode memory text start p ∧
      p.calls.map Prod.fst = p.tokens.filterMap Token.code ∧
      (l.watch (noted next) mode (memory, []) text start).2 = (p.memory, p.calls) ∧
      l.lex next mode memory text start = (fun s => (s.1, s.2, p.memory)) <$>
        (l.watch (noted next) mode (memory, []) text start).1 ∧
      (text.length ≤ p.pos start ∧
          l.lex next mode memory text start = .ok (p.tokens, p.mode mode, p.memory) ∨
        p.pos start < text.length ∧ l.dfa? (p.mode mode) = none ∧
          l.lex next mode memory text start = .error (.unknownMode (p.mode mode)))) ∧
    ∀ name, l.lex next mode memory text start = .error (.unknownMode name) ↔
      ∃ p, l.Reaches next mode memory text start p ∧ p.pos start < text.length ∧
        p.mode mode = name ∧ l.dfa? name = none := by
  refine ⟨?_, fun name => h.lex_eq_error_iff⟩
  have hstart : l.Reaches next mode memory text start ⟨[], [], memory⟩ := .start
  obtain ⟨p, hp, hend | ⟨hpos, hd⟩⟩ := hstart.exists_last h
  · have hlex := hp.lex_last h hend
    rw [hp.watch_last h hend]
    exact ⟨p, hp, hp.calls_eq, rfl, hlex, .inl ⟨hend, hlex⟩⟩
  · have hlex := hp.lex_missing h hpos hd
    rw [hp.watch_missing h hpos hd]
    exact ⟨p, hp, hp.calls_eq, rfl, hlex, .inr ⟨hpos, hd, hlex⟩⟩

/-- The callback counts how often it is asked. It has been asked twice when a mode is missing. -/
theorem quoteModes_switches :
    let next (_ : Nat) : StateM Nat Nat := modifyGet fun asked => (asked + 1, asked + 1)
    ∃ p, quoteModes.Reaches next 0 0 "\"\"x" 0 p ∧ p.calls = [(1, 1), (0, 2)] ∧
      quoteModes.lex next 0 0 "\"\"x" 0 = .error (.unknownMode 2) := by
  intro next
  have hwell : quoteModes.WellFormed := by decide +kernel
  have hcalls : (quoteModes.watch (noted next) 0 (0, []) "\"\"x" 0).2 = (2, [(1, 1), (0, 2)]) := by
    decide +kernel
  have hfails : (quoteModes.lex next 0 0 "\"\"x" 0).toBool = false := by decide +kernel
  obtain ⟨⟨p, hp, -, hnoted, -, hends⟩, -⟩ := lex_switches quoteModes hwell next 0 0 "\"\"x" 0
  obtain ⟨-, hpcalls⟩ := Prod.mk.inj (hnoted.symm.trans hcalls)
  have hmode : p.mode 0 = 2 := by
    rw [Progress.mode, hpcalls]
    rfl
  rcases hends with ⟨-, hok⟩ | ⟨-, -, herror⟩
  · rw [hok] at hfails
    cases hfails
  · exact ⟨p, hp, hpcalls, hmode ▸ herror⟩

/-- At the end of the text the mode may be missing. -/
example : (quoteModes.lex (fun _ => modifyGet fun asked => (asked + 1, asked + 1)) 0 0 "\"\"" 0
    ).toOption = some ([⟨"\"", some 1, 0, 1⟩, ⟨"\"", some 0, 1, 2⟩], 2, 2) := by
  decide +kernel

end Lexer

end Munch
