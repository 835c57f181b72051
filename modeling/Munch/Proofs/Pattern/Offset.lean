-- SUMMARY: Where the parser stops in a malformed pattern: behind the longest pattern at its front.
import Munch.Proofs.Checked
import Munch.Proofs.Pattern.Complete

/-! # Offsets of errors

The machine does not know what comes after the text of a derivation, and it may
read on. It never stops before the end of that text, though: the items of a
repetition are seen to begin, an atom ends by itself, and a character that is
read behind the last atom can only be its quantifier. So the place where it
stops does not lie before the end of any pattern that the input begins with. -/

namespace Munch.Pattern

open Peg
open Reducer (join)

variable {d bound : Nat} {stack : List Item} {rest : List Char}

/-! ## Reading on -/

/-- The rule matches, and what it reads goes at least to the end of the text. -/
def Reaches {n : Nonterminal} (t : Derivation n) (rest : List Char) : Prop :=
  ∀ stack, ∃ v rest', rest'.length ≤ rest.length ∧
    Ends rules (64 * (t.written ++ rest).length + n.cost) (.call n) stack (t.written ++ rest)
      (.matched (n.item v :: stack) rest')

theorem Accepts.reaches {n : Nonterminal} {t : Derivation n} (h : Accepts t rest) :
    Reaches t rest :=
  fun stack => ⟨t.value, rest, Nat.le_refl _, h stack _ rfl⟩

/-! ## Quantifiers -/

theorem Quantifier.exists_mark {c : Char} (h : ¬ Nonterminal.quantified.Precedes c) :
    ∃ q : Quantifier, q.mark = c := by
  simp only [Nonterminal.Precedes, List.mem_cons, List.not_mem_nil, or_false, not_not] at h
  rcases h with rfl | rfl | rfl
  · exact ⟨.optional, rfl⟩
  · exact ⟨.repeated, rfl⟩
  · exact ⟨.any, rfl⟩

/-- A quantifier behind the text is read as well. -/
theorem reaches_quantified (t : Derivation .quantified) (hlength : t.written.length < 2147483648) :
    Reaches t rest := by
  cases t with
  | quantified atom q =>
    simp only [Derivation.written, List.length_append] at hlength
    have hatom : ∀ w, Accepts atom w := fun w => accepts atom (fun _ _ => trivial) (by omega)
    by_cases hbefore : q = none → Nonterminal.quantified.Before rest
    · exact (accepts_quantified (hatom _) hbefore).reaches
    · obtain ⟨rfl, hnot⟩ := Classical.not_imp.1 hbefore
      obtain ⟨c, w, rfl, hc⟩ : ∃ c w, rest = c :: w ∧ ¬ Nonterminal.quantified.Precedes c := by
        cases rest with
        | nil => exact absurd Nonterminal.before_nil hnot
        | cons c w => exact ⟨c, w, rfl, fun hc => hnot (Nonterminal.before_cons hc)⟩
      obtain ⟨q, rfl⟩ := Quantifier.exists_mark hc
      have hlonger : Accepts (.quantified atom (some q)) w :=
        accepts_quantified (hatom _) fun hq => absurd hq (Option.some_ne_none q)
      refine fun stack => ⟨_, w, Nat.le_succ _, hlonger stack _ ?_⟩
      simp [Derivation.written]

/-! ## Repetitions -/

section Repetition

variable {m outer : Nonterminal} {mark : List Char} {body : Peg Nonterminal Item}
  {f : m.Value → m.Value → m.Value}

/-- The body of a repetition joins an item to the one on the stack, or fails. -/
def Joins (m : Nonterminal) (body : Peg Nonterminal Item) (bound d : Nat) : Prop :=
  ∀ (v : m.Value) (stack : List Item) (input : List Char), input.length ≤ bound →
    Safe rules d body (m.item v :: stack) input fun stack' rest =>
      (∃ v', stack' = m.item v' :: stack) ∧ rest.length < input.length

theorem joins_regex (hbound : bound < 2147483648) :
    Joins .sequence
      (exact '|' ++ call Nonterminal.sequence ++ reduce 2 (join fun a b => .alternative [a, b]))
      bound (64 * bound + 29) := by
  intro v stack input hinput
  refine .seq (.seq (.exact fun rest hrest => ?_))
  subst hrest
  rw [List.length_cons] at hinput
  refine (safe_rule .sequence (by omega)).mono (by simp only [Nonterminal.cost]; omega)
    fun t rest' hrest' => ?_
  refine .reduce [Item.pattern v, .pattern t.value] rfl ⟨⟨_, rfl⟩, ?_⟩
  simp only [hrest', List.length_cons, List.length_append]
  omega

theorem joins_sequence (hbound : bound < 2147483648) :
    Joins .quantified
      (call Nonterminal.quantified ++ reduce 2 (join fun a b => .concat [a, b]))
      bound (64 * bound + 23) := by
  intro v stack input hinput
  refine .seq ((safe_rule .quantified (by omega)).mono (by simp only [Nonterminal.cost]; omega)
    fun t rest hrest => ?_)
  obtain ⟨c, w, hw, -⟩ := t.head rfl
  refine .reduce [Item.pattern v, .pattern t.value] rfl ⟨⟨_, rfl⟩, ?_⟩
  simp only [hrest, hw, List.length_cons, List.length_append]
  omega

/-- The turns of such a body end on any input. -/
theorem Joins.turns (h : Joins m body bound d) (v : m.Value) (stack : List Item) {input : List Char}
    (hinput : input.length ≤ bound) :
    ∃ v' rest', rest'.length ≤ input.length ∧
      Turns rules d body (m.item v :: stack) input (m.item v' :: stack) rest' := by
  have hturn : Safe.Turn rules d body fun stack' rest =>
      (∃ v', stack' = m.item v' :: stack) ∧ rest.length ≤ input.length := by
    rintro _ rest ⟨⟨v, rfl⟩, hrest⟩
    refine (h v stack rest (by omega)).imp ?_
    rintro stack' rest' ⟨hv, hlt⟩
    exact ⟨⟨hv, by omega⟩, hlt⟩
  obtain ⟨_, rest', hturns, ⟨v', rfl⟩, hle⟩ := hturn.turns ⟨⟨v, rfl⟩, Nat.le_refl _⟩
  exact ⟨v', rest', hle, hturns⟩

/-- All items but the last are read as they are written, since the next one is seen to begin. -/
theorem Repeater.turns_reach (h : Repeater m outer mark body f) (hjoins : Joins m body bound d)
    (hlast : ∀ t : Derivation m, (t.written ++ rest).length ≤ bound → Reaches t rest)
    (hd : 64 * bound + m.cost + 3 ≤ d) (hbound : bound < 2147483648) :
    (ts : Derivations m) → (v : m.Value) → (stack : List Item) →
    (ts.written mark ++ rest).length ≤ bound → ∃ v' rest', rest'.length ≤ rest.length ∧
      Turns rules d body (m.item v :: stack) (ts.written mark ++ rest) (m.item v' :: stack) rest'
  | .nil, v, stack, hle => hjoins.turns v stack hle
  | .cons t .nil, v, stack, hle => by
    have hwritten : (Derivations.cons t .nil).written mark ++ rest = mark ++ (t.written ++ rest) := by
      simp [Derivations.written]
    have hpos := h.repeats.length_pos t
    rw [hwritten] at hle ⊢
    simp only [List.length_append] at hle hpos
    obtain ⟨u, rest₁, hle₁, hends⟩ :=
      hlast t (by simp only [List.length_append]; omega) (m.item v :: stack)
    have hrest₁ : rest₁.length ≤ bound := by omega
    obtain ⟨v', rest', hle', hturns⟩ := hjoins.turns (f v u) stack hrest₁
    refine ⟨v', rest', Nat.le_trans hle' hle₁, .turn ((h.turn hends).mono ?_) ?_ hturns⟩
    all_goals
      simp only [List.length_append]
      omega
  | .cons t (.cons u us), v, stack, hle => by
    have hwritten : (Derivations.cons t (.cons u us)).written mark ++ rest =
        mark ++ (t.written ++ ((Derivations.cons u us).written mark ++ rest)) := by
      simp [Derivations.written]
    have hnext : m.Before ((Derivations.cons u us).written mark ++ rest) := by
      rw [Derivations.written, List.append_assoc, List.append_assoc]
      exact h.repeats.next u _
    have hpos := h.repeats.length_pos t
    rw [hwritten] at hle ⊢
    simp only [List.length_append] at hle hpos
    have ht : Accepts t ((Derivations.cons u us).written mark ++ rest) :=
      accepts t hnext (by omega)
    obtain ⟨v', rest', hle', hturns⟩ := h.turns_reach hjoins hlast hd hbound (.cons u us)
      (f v t.value) stack (by simp only [List.length_append]; omega)
    refine ⟨v', rest', hle', .turn ((h.turn (ht.ends (Nat.le_refl _))).mono ?_) ?_ hturns⟩
    all_goals
      simp only [List.length_append]
      omega

end Repetition

theorem reaches_sequence :
    (t : Derivation .sequence) → (t.written ++ rest).length < 2147483648 → Reaches t rest
  | .sequence items, hlength => by
    intro stack
    have hlast : ∀ t : Derivation .quantified,
        (t.written ++ rest).length ≤ (items.written [] ++ rest).length → Reaches t rest := by
      intro t hle
      refine reaches_quantified t (Nat.lt_of_le_of_lt ?_ (Nat.lt_of_le_of_lt hle hlength))
      simp
    obtain ⟨v, rest', hle, hturns⟩ := repeater_sequence.turns_reach (joins_sequence hlength) hlast
      (Nat.le_refl _) hlength items Pattern.emptyString stack (Nat.le_refl _)
    have hlt : (items.written [] ++ rest).length < 64 * (items.written [] ++ rest).length + 23 := by
      omega
    exact ⟨v, rest', hle, ends_call rfl (ends_seq ends_push (ends_many hturns hlt))⟩

/-- The first alternative is read as it is written, if another one is seen to begin. -/
theorem reaches_regex :
    (t : Derivation .regex) → (t.written ++ rest).length < 2147483648 → Reaches t rest
  | .regex first .nil, hlength => by
    intro stack
    have hwritten : (Derivation.regex first .nil).written ++ rest = first.written ++ rest := by
      simp [Derivation.written, Derivations.written]
    rw [hwritten] at hlength ⊢
    obtain ⟨u, w, hw, hfirst⟩ := reaches_sequence first hlength stack
    have hle : w.length ≤ (first.written ++ rest).length := by
      rw [List.length_append]
      omega
    obtain ⟨v, rest', hrest', hturns⟩ :=
      (joins_regex (Nat.lt_of_le_of_lt hle hlength)).turns u stack (Nat.le_refl _)
    exact ⟨v, rest', Nat.le_trans hrest' hw, ends_call rfl (ends_separated hfirst hle hturns)⟩
  | .regex first (.cons t ts), hlength => by
    intro stack
    rw [Derivation.written, List.append_assoc] at hlength ⊢
    generalize hmore : (Derivations.cons t ts).written ['|'] ++ rest = w at hlength ⊢
    have hfirst : Accepts first w := by
      refine accepts first ?_ ?_
      · rw [← hmore, Derivations.written, List.append_assoc, List.append_assoc]
        exact repeats_regex.next t _
      · rw [List.length_append] at hlength
        omega
    have hw : w.length < 2147483648 := by
      rw [List.length_append] at hlength
      omega
    have hlast : ∀ t : Derivation .sequence, (t.written ++ rest).length ≤ w.length →
        Reaches t rest :=
      fun t hle => reaches_sequence t (Nat.lt_of_le_of_lt hle hw)
    obtain ⟨v, rest', hrest', hturns⟩ := repeater_regex.turns_reach (joins_regex hw)
      hlast (Nat.le_refl _) hw (.cons t ts) first.value stack (Nat.le_of_eq (by rw [hmore]))
    rw [hmore] at hturns
    exact ⟨v, rest', hrest', ends_call rfl (hfirst.ends_separated hturns)⟩

/-! ## The parser -/

/-- The parser stops behind the longest text of a pattern that the input begins with. -/
theorem exists_longest {input : List Char} (h : input.length < 2147483648) :
    ∃ (t : Derivation .regex) (rest : List Char), input = t.written ++ rest ∧
      Ends rules (depth input) (.call .regex) [] input (.matched [.pattern t.value] rest) ∧
      ∀ (t' : Derivation .regex) rest', input = t'.written ++ rest' →
        rest.length ≤ rest'.length := by
  have hreach : ∀ (t' : Derivation .regex) rest', input = t'.written ++ rest' →
      ∃ v w, w.length ≤ rest'.length ∧
        run rules (depth input) (.call .regex) [] input = .matched [.pattern v] w := by
    rintro t' rest' rfl
    obtain ⟨v, w, hw, hends⟩ := reaches_regex t' h []
    exact ⟨v, w, hw, hends _ (Nat.add_le_add_left (by decide) _)⟩
  rcases ends_rule .regex [] h with hfail | ⟨t, rest, hinput, hmatch⟩
  · -- The empty text is that of a pattern, so there is something to read.
    obtain ⟨v, w, -, hrun⟩ := hreach (.regex (.sequence .nil) .nil) input rfl
    cases (hfail _ (Nat.le_refl _)).symm.trans hrun
  · refine ⟨t, rest, hinput, hmatch, fun t' rest' hinput' => ?_⟩
    obtain ⟨v, w, hw, hrun⟩ := hreach t' rest' hinput'
    cases (hmatch _ (Nat.le_refl _)).symm.trans hrun
    exact hw

theorem exists_written {text : String} (h : text.length < 2147483648) {p : Pattern}
    (hp : parse text = .ok p) : ∃ t : Derivation .regex, t.written = text.toList ∧ t.value = p := by
  rcases parse_cases h with ⟨t, ht, hok⟩ | ⟨offset, -, herror⟩
  · exact ⟨t, ht, Except.ok.inj (hok.symm.trans hp)⟩
  · cases herror.symm.trans hp

/-- The offset of an error is the length of the longest front of the text that is a pattern. It lies
inside of the text. -/
theorem malformed_offset {text : String} (h : text.length < 2147483648) {pattern : String}
    {offset : Nat} (herror : parse text = .error (.malformed pattern offset)) :
    pattern = text ∧ offset < text.length ∧
      (∃ front : String, front.toList <+: text.toList ∧ front.length = offset ∧
        ∃ p, parse front = .ok p) ∧
      ∀ (front : String) p, front.toList <+: text.toList → parse front = .ok p →
        front.length ≤ offset := by
  have hlength : text.toList.length = text.length := String.length_toList
  obtain ⟨t, rest, hinput, hmatch, hlongest⟩ := exists_longest (hlength ▸ h)
  have htext : text.length = t.written.length + rest.length := by
    rw [← hlength, hinput, List.length_append]
  rw [parse, hmatch _ (Nat.le_refl _)] at herror
  cases rest with
  | nil => cases herror
  | cons c rest =>
    obtain ⟨rfl, rfl⟩ : text = pattern ∧ text.toList.length - (c :: rest).length = offset := by
      cases herror
      exact ⟨rfl, rfl⟩
    have hoffset : text.toList.length - (c :: rest).length = t.written.length := by omega
    rw [hoffset]
    refine ⟨rfl, ?_, ⟨String.ofList t.written, ?_, ?_, t.value, ?_⟩, fun front p hfront hp => ?_⟩
    · rw [List.length_cons] at htext
      omega
    · rw [String.toList_ofList, hinput]
      exact List.prefix_append _ _
    · rw [String.length_ofList]
    · refine parse_written ?_ (by rw [String.toList_ofList])
      rw [String.length_ofList]
      omega
    · obtain ⟨rest', hrest'⟩ := hfront
      have hfrontLength : front.length + rest'.length = text.length := by
        rw [← hlength, ← hrest', List.length_append, String.length_toList]
      obtain ⟨t', ht', -⟩ := exists_written (by omega) hp
      have hle := hlongest t' rest' (by rw [ht', hrest'])
      omega

/-- A class that is not closed, behind a group that is. -/
theorem malformed_offset_unclosed : "(a|b)c[d".length < 2147483648 ∧
    parse "(a|b)c[d" = .error (.malformed "(a|b)c[d" 6) ∧
    (∃ front : String, front.toList <+: "(a|b)c[d".toList ∧ front.length = 6 ∧
      ∃ p, parse front = .ok p) ∧
    ∀ (front : String) p, front.toList <+: "(a|b)c[d".toList → parse front = .ok p →
      front.length ≤ 6 := by
  have hlength : "(a|b)c[d".length < 2147483648 := by decide
  have hstop : (fun _ => ()) <$> parse "(a|b)c[d" = .error (.malformed "(a|b)c[d" 6) := by
    decide +kernel
  have herror := Checked.map_eq_error hstop
  obtain ⟨-, -, hfront, hlonger⟩ := malformed_offset hlength herror
  exact ⟨hlength, herror, hfront, hlonger⟩

end Munch.Pattern
