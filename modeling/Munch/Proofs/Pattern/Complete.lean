-- SUMMARY: The parser reads every text that the grammar derives, and builds the tree it denotes.
import Munch.Proofs.Pattern.Parser
import Munch.Proofs.Pattern.Unambiguous

/-! # Completeness of the parser

The machine follows a derivation: choices take its alternatives, since those
before fail on the next character, and repetitions stop where it does. Hence
every rule reads the text of a derivation, if the input goes on with a
character that may come after its symbol, and pushes the value. -/

namespace Munch.Pattern

open Peg
open Reducer (appendDigit moveShift join joinClasses)

variable {d : Nat} {stack : List Item} {input rest : List Char}

/-! ## Letters -/

section Letters

variable {level : Level} {β : Type} {item : β → Item} {single escaped : Char → β}
  {coded : List Char → β} {hex : Reducer}

theorem turns_digits {ds ds' : List Char} (h : ∀ c ∈ ds', IsHexDigit c) :
    Turns rules (d + 2) (take hexDigits Item.char ++ reduce 2 appendDigit) (.digits ds :: stack)
      (ds' ++ ';' :: rest) (.digits (ds ++ ds') :: stack) (';' :: rest) := by
  induction ds' generalizing ds with
  | nil =>
    rw [List.append_nil]
    refine .stop (ends_seq_fail (ends_take_fail ?_))
    rintro _ ⟨⟩ hmem
    exact not_isHexDigit_semicolon (mem_hexDigits.1 hmem)
  | cons c ds' ih =>
    obtain ⟨hc, hds'⟩ := List.forall_mem_cons.1 h
    have hturns := @ih (ds ++ [c]) hds'
    rw [List.append_assoc] at hturns
    refine .turn (ends_seq (ends_take (mem_hexDigits.2 hc)) ?_) (by simp) hturns
    exact ends_reduce [Item.digits ds, .char c] rfl

theorem ends_hexEscape {ds : List Char} (hne : ds ≠ []) (hds : ∀ c ∈ ds, IsHexDigit c)
    (hd : (ds ++ ';' :: rest).length < d + 2) :
    Ends rules (d + 6) hexEscape stack ('x' :: (ds ++ ';' :: rest))
      (.matched (.digits ds :: stack) rest) := by
  have hpos : 0 < ds.length := List.length_pos_iff.2 hne
  refine ends_seq (ends_seq (ends_seq (ends_seq ends_exact ends_push) ?_)
    (ends_take (RangeSet.mem_only.2 rfl))) ends_drop
  refine ends_many1 (turns_digits hds) ?_ hd
  simp only [List.length_append, List.length_cons]
  omega

/-- The special characters, other than the backslash, begin no letter. -/
theorem ends_letter_fail (h : ∀ c ∈ input.head?, c ∈ level.special.toList ∧ c ≠ '\\') :
    Ends rules (d + 3) (letter level (fun c => item (single c)) (fun c => item (escaped c)) hex)
      stack input .failed := by
  refine ends_alt_right (ends_take_fail fun c hc hmem => ?_)
    (ends_seq_fail (ends_exact_fail fun c hc => (h c hc).2))
  exact (Level.mem_literals.1 hmem).2 (h c hc).1

theorem ends_letter (hspecial : '\\' ∈ level.special.toList)
    (hescapable : 'x' ∉ level.escapable.toList) (l : Letter level)
    (hhex : ∀ ds, hex [.digits ds] = some (item (coded ds))) :
    Ends rules (64 * (l.written ++ rest).length + 12)
      (letter level (fun c => item (single c)) (fun c => item (escaped c)) hex) stack
      (l.written ++ rest) (.matched (item (l.value single escaped coded) :: stack) rest) := by
  have hbackslash : ∀ w : List Char, ∀ c ∈ ('\\' :: w).head?, ¬ c ∈ level.literals := by
    rintro w _ ⟨⟩ hmem
    exact (Level.mem_literals.1 hmem).2 hspecial
  have hx : ∀ w : List Char, ∀ c ∈ ('x' :: w).head?, ¬ c ∈ level.escapes := by
    rintro w _ ⟨⟩ hmem
    exact hescapable (Level.mem_escapes.1 hmem)
  cases l with
  | literal c printable plain =>
    exact ends_alt_left (ends_take (Level.mem_literals.2 ⟨printable, plain⟩))
  | escape c escapable =>
    refine ends_alt_right (ends_take_fail (hbackslash _)) (ends_seq ends_exact (ends_alt_left ?_))
    exact ends_take (Level.mem_escapes.2 escapable)
  | hex ds hne hds =>
    have hwritten : (Letter.hex ds hne hds : Letter level).written ++ rest =
        '\\' :: 'x' :: (ds ++ ';' :: rest) := by simp [Letter.written]
    rw [hwritten]
    refine ends_alt_right (ends_take_fail (hbackslash _)) (ends_seq ends_exact (ends_alt_right
      (ends_take_fail (hx _)) (ends_seq ?_ (ends_reduce [Item.digits ds] (hhex ds)))))
    have hd : (ds ++ ';' :: rest).length < (ds ++ ';' :: rest).length + 2 := by omega
    exact (ends_hexEscape hne hds hd).mono (by simp only [List.length_cons]; omega)

end Letters

/-! ## Rules that fail

A rule that cannot be empty fails on a character that its texts do not begin with. -/

theorem Nonterminal.not_opens {n : Nonterminal} {c : Char} :
    ¬ n.Opens c ↔ c ∈ n.level.special.toList ∧ c ∉ n.openings :=
  Classical.not_imp

theorem fails_setLiteral (h : ∀ c ∈ input.head?, ¬ Nonterminal.setLiteral.Opens c) :
    Ends rules (d + 4) (.call .setLiteral) stack input .failed := by
  refine ends_call rfl (ends_letter_fail fun c hc => ?_)
  obtain ⟨hspecial, hopening⟩ := Nonterminal.not_opens.1 (h c hc)
  exact ⟨hspecial, fun heq => hopening (List.mem_singleton.2 heq)⟩

theorem fails_setChar (hd : input.length < d + 3)
    (h : ∀ c ∈ input.head?, ¬ Nonterminal.setChar.Opens c) :
    Ends rules (d + 10) (.call .setChar) stack input .failed := by
  refine ends_call rfl (ends_seq_fail (ends_seq_fail (ends_seq_fail (ends_seq (ends_seq ends_push
    (ends_many (.stop (ends_seq_fail (ends_exact_fail fun c hc heq => ?_))) hd))
    (fails_setLiteral fun c hc hopens => ?_)))))
  · exact absurd (heq ▸ h c hc) (by decide)
  · exact h c hc fun hspecial => List.mem_append_left ['<'] (hopens hspecial)

theorem fails_atom (h : ∀ c ∈ input.head?, ¬ Nonterminal.atom.Opens c) :
    Ends rules (d + 7) (.call .atom) stack input .failed := by
  have hmarks : ∀ c ∈ input.head?, c ≠ '\\' ∧ c ≠ '[' ∧ c ≠ '(' := by
    intro c hc
    obtain ⟨-, hopening⟩ := Nonterminal.not_opens.1 (h c hc)
    simpa [Nonterminal.openings] using hopening
  refine ends_call rfl (ends_alt_right (ends_letter_fail fun c hc => ?_) (ends_alt_right
    (ends_seq_fail (ends_seq_fail (ends_seq_fail (ends_exact_fail fun c hc => (hmarks c hc).2.1))))
    (ends_seq_fail (ends_seq_fail (ends_exact_fail fun c hc => (hmarks c hc).2.2)))))
  exact ⟨(Nonterminal.not_opens.1 (h c hc)).1, (hmarks c hc).1⟩

theorem fails_quantified (h : ∀ c ∈ input.head?, ¬ Nonterminal.quantified.Opens c) :
    Ends rules (d + 9) (.call .quantified) stack input .failed :=
  ends_call rfl (ends_seq_fail (fails_atom h))

/-! ## Characters of a class -/

/-- The rule reads the text of the derivation before `rest` and pushes the value. -/
def Accepts {n : Nonterminal} (t : Derivation n) (rest : List Char) : Prop :=
  ∀ stack input, t.written ++ rest = input →
    Ends rules (64 * input.length + n.cost) (.call n) stack input
      (.matched (n.item t.value :: stack) rest)

theorem Accepts.ends {n : Nonterminal} {t : Derivation n} (h : Accepts t rest)
    (hd : 64 * (t.written ++ rest).length + n.cost ≤ d) :
    Ends rules d (.call n) stack (t.written ++ rest) (.matched (n.item t.value :: stack) rest) :=
  (h stack _ rfl).mono hd

/-- Behind a character that was read there is depth for any rule. -/
theorem Accepts.after {n : Nonterminal} {t : Derivation n} {c : Char} (h : Accepts t rest) :
    Ends rules (64 * (c :: (t.written ++ rest)).length + d) (.call n) stack (t.written ++ rest)
      (.matched (n.item t.value :: stack) rest) := by
  have := n.cost_le
  exact h.ends (by simp only [List.length_cons]; omega)

theorem accepts_setLiteral : (t : Derivation .setLiteral) → Accepts t rest
  | .setLiteral l => by
    rintro stack _ rfl
    refine ends_call rfl ((ends_letter (by decide) (by decide) l fun _ => rfl).mono ?_)
    simp [Derivation.written]

theorem turns_marks {mark : Char} {step : Int} (hstep : step = -1 ∨ step = 1)
    (hrest : ∀ c ∈ rest.head?, c ≠ mark) {count count' : Nat}
    (hcount : count + count' < 2147483648) :
    Turns rules (d + 2) (exact mark ++ reduce 1 (moveShift step)) (.shift (count * step) :: stack)
      (.replicate count' mark ++ rest) (.shift ((count + count' : Nat) * step) :: stack) rest := by
  induction count' generalizing count with
  | zero => exact .stop (ends_seq_fail (ends_exact_fail hrest))
  | succ count' ih =>
    have hturns := @ih (count + 1) (by omega)
    rw [Nat.add_right_comm, Nat.add_assoc] at hturns
    refine .turn (ends_seq ends_exact ?_) (by simp) hturns
    exact ends_reduce [Item.shift (count * step)] (moveShift_mul hstep (by omega))

theorem ends_marks {mark : Char} {step : Int} (hstep : step = -1 ∨ step = 1)
    (hrest : ∀ c ∈ rest.head?, c ≠ mark) {count : Nat} (hcount : count < 2147483648)
    (hd : (List.replicate count mark ++ rest).length < d + 2) :
    Ends rules (d + 3) (many (exact mark ++ reduce 1 (moveShift step))) (.shift 0 :: stack)
      (.replicate count mark ++ rest) (.matched (.shift (count * step) :: stack) rest) := by
  have hturns := @turns_marks d stack rest mark step hstep hrest 0 count (by omega)
  rw [Nat.zero_add, Int.natCast_zero, Int.zero_mul] at hturns
  exact ends_many hturns hd

theorem accepts_setChar (hrest : Nonterminal.setChar.Before rest) : (t : Derivation .setChar) →
    t.written.length < 2147483648 → Accepts t rest
  | .setChar left c right, hlength => by
    rintro stack _ rfl
    simp only [Derivation.written, List.length_append, List.length_replicate] at hlength
    have hwritten : (Derivation.setChar left c right).written ++ rest =
        .replicate left '<' ++ (c.written ++ (.replicate right '>' ++ rest)) := by
      simp [Derivation.written]
    rw [hwritten]
    have hleft : ∀ x ∈ (c.written ++ (.replicate right '>' ++ rest)).head?, x ≠ '<' := by
      rintro _ hx rfl
      exact absurd (c.opens rfl (List.eq_cons_of_mem_head? hx)) (by decide)
    refine ends_call rfl (ends_seq (ends_seq (ends_seq (ends_seq (ends_seq ends_push
      (ends_marks (.inl rfl) hleft (by omega) (by omega))) ?_) ends_push)
      (ends_marks (.inr rfl) hrest (by omega) (by simp only [List.length_append]; omega)))
      (ends_reduce [Item.shift (left * -1), .classChar c.value, .shift (right * 1)]
        (applyShifts_eq (by omega) (by omega) c)))
    exact (accepts_setLiteral c).ends (by simp only [Nonterminal.cost, List.length_append]; omega)

/-! ## Atoms of a class -/

section SetAtom

variable (hrest : Nonterminal.setAtom.Before rest)

include hrest

theorem ne_dash : ∀ c ∈ rest.head?, c ≠ '-' := by
  rintro _ hc rfl
  exact absurd (hrest _ hc) (by decide)

theorem accepts_only {c : Derivation .setChar} (hlength : c.written.length < 2147483648) :
    Accepts (.only c) rest := by
  rintro stack _ rfl
  have hc : Accepts c rest := accepts_setChar (Derivation.before_setChar hrest) c hlength
  refine ends_call rfl (ends_alt_left (ends_seq (hc.ends ?_) (ends_alt_right
    (ends_seq_fail (ends_exact_fail (ne_dash hrest))) (ends_reduce [Item.classChar c.value] rfl))))
  exact Nat.add_le_add_left (by decide) _

theorem accepts_atLeast {start : Derivation .setChar}
    (hlength : start.written.length < 2147483648) : Accepts (.atLeast start) rest := by
  rintro stack _ rfl
  have hstart : Accepts start ('-' :: rest) :=
    accepts_setChar Derivation.before_setChar_dash start hlength
  have hwritten : (Derivation.atLeast start).written ++ rest = start.written ++ '-' :: rest := by
    simp [Derivation.written]
  rw [hwritten]
  refine ends_call rfl (ends_alt_left (ends_seq (hstart.ends ?_) (ends_alt_left (ends_seq ends_exact
    (ends_alt_right (ends_seq_fail ((fails_setChar (d := rest.length) ?_ fun c hc => ?_).mono ?_))
      (ends_reduce [Item.classChar start.value] rfl))))))
  · exact Nat.add_le_add_left (by decide) _
  · omega
  · exact Nonterminal.not_opens_setChar (hrest c hc)
  · simp only [List.length_append, List.length_cons]
    omega

theorem accepts_between {start stop : Derivation .setChar}
    (hlength : (Derivation.between start stop).written.length < 2147483648) :
    Accepts (.between start stop) rest := by
  rintro stack _ rfl
  simp only [Derivation.written, List.length_append, List.length_cons] at hlength
  have hstart : Accepts start ('-' :: (stop.written ++ rest)) :=
    accepts_setChar Derivation.before_setChar_dash start (by omega)
  have hstop : Accepts stop rest :=
    accepts_setChar (Derivation.before_setChar hrest) stop (by omega)
  have hwritten : (Derivation.between start stop).written ++ rest =
      start.written ++ '-' :: (stop.written ++ rest) := by simp [Derivation.written]
  rw [hwritten]
  refine ends_call rfl (ends_alt_left (ends_seq (hstart.ends ?_) (ends_alt_left (ends_seq ends_exact
    (ends_alt_left (ends_seq (hstop.ends ?_)
      (ends_reduce [Item.classChar start.value, .classChar stop.value] rfl)))))))
  · exact Nat.add_le_add_left (by decide) _
  · simp only [Nonterminal.cost, List.length_append, List.length_cons]
    omega

theorem accepts_atMost {stop : Derivation .setChar} (hlength : stop.written.length < 2147483648) :
    Accepts (.atMost stop) rest := by
  rintro stack _ rfl
  have hstop : Accepts stop rest :=
    accepts_setChar (Derivation.before_setChar hrest) stop hlength
  have hwritten : (Derivation.atMost stop).written ++ rest = '-' :: (stop.written ++ rest) := rfl
  rw [hwritten]
  refine ends_call rfl (ends_alt_right (ends_seq_fail (fails_setChar ?_ ?_)) (ends_alt_left
    (ends_seq (ends_seq ends_exact hstop.after) (ends_reduce [Item.classChar stop.value] rfl))))
  · omega
  · rintro _ ⟨⟩
    decide

end SetAtom

theorem accepts_setGroup {s : Derivation .set} (hs : Accepts s (')' :: rest)) :
    Accepts (.setGroup s) rest := by
  rintro stack _ rfl
  have hwritten : (Derivation.setGroup s).written ++ rest = '(' :: (s.written ++ ')' :: rest) := by
    simp [Derivation.written]
  rw [hwritten]
  refine ends_call rfl (ends_alt_right (ends_seq_fail (fails_setChar ?_ ?_)) (ends_alt_right
    (ends_seq_fail (ends_seq_fail (ends_exact_ne (by decide))))
    (ends_seq (ends_seq ends_exact hs.after) ends_exact)))
  · omega
  · rintro _ ⟨⟩
    decide

/-! ## Factors -/

theorem accepts_complement {t : Derivation .setAtom} (ht : Accepts t rest) :
    Accepts (.complement t) rest := by
  rintro stack _ rfl
  have hwritten : (Derivation.complement t).written ++ rest = '~' :: (t.written ++ rest) := rfl
  rw [hwritten]
  exact ends_call rfl (ends_alt_left (ends_seq (ends_seq ends_exact ht.after)
    (ends_reduce [Item.charClass t.value] rfl)))

theorem accepts_factor {t : Derivation .setAtom} (ht : Accepts t rest) :
    Accepts (.factor t) rest := by
  rintro stack _ rfl
  refine ends_call rfl (ends_alt_right (ends_seq_fail (ends_seq_fail (ends_exact_fail ?_)))
    (ht.ends (Nat.add_le_add_left (by decide) _)))
  rintro _ hc rfl
  exact absurd (t.opens rfl (List.eq_cons_of_mem_head? hc)) (by decide)

/-! ## Atoms -/

theorem accepts_letter {l : Letter .outer} : Accepts (.letter l) rest := by
  rintro stack _ rfl
  exact ends_call rfl (ends_alt_left
    ((ends_letter (by decide) (by decide) l fun _ => rfl).mono (Nat.add_le_add_left (by decide) _)))

theorem accepts_oneOf {s : Derivation .set} (hs : Accepts s (']' :: rest)) :
    Accepts (.oneOf s) rest := by
  rintro stack _ rfl
  have hwritten : (Derivation.oneOf s).written ++ rest = '[' :: (s.written ++ ']' :: rest) := by
    simp [Derivation.written]
  rw [hwritten]
  refine ends_call rfl (ends_alt_right (ends_letter_fail ?_) (ends_alt_left (ends_seq (ends_seq
    (ends_seq ends_exact hs.after) ends_exact) (ends_reduce [Item.charClass s.value] rfl))))
  rintro _ ⟨⟩
  decide

theorem accepts_group {r : Derivation .regex} (hr : Accepts r (')' :: rest)) :
    Accepts (.group r) rest := by
  rintro stack _ rfl
  have hwritten : (Derivation.group r).written ++ rest = '(' :: (r.written ++ ')' :: rest) := by
    simp [Derivation.written]
  rw [hwritten]
  refine ends_call rfl (ends_alt_right (ends_letter_fail ?_) (ends_alt_right (ends_seq_fail
    (ends_seq_fail (ends_seq_fail (ends_exact_ne (by decide)))))
    (ends_seq (ends_seq ends_exact hr.after) ends_exact)))
  rintro _ ⟨⟩
  decide

/-! ## Quantifiers -/

theorem accepts_quantified {atom : Derivation .atom} {q : Option Quantifier}
    (hatom : Accepts atom ((q.map Quantifier.mark).toList ++ rest))
    (hrest : q = none → Nonterminal.quantified.Before rest) : Accepts (.quantified atom q) rest := by
  rintro stack _ rfl
  have hwritten : (Derivation.quantified atom q).written ++ rest =
      atom.written ++ ((q.map Quantifier.mark).toList ++ rest) := by simp [Derivation.written]
  rw [hwritten]
  refine ends_call rfl (ends_seq (hatom.ends (Nat.add_le_add_left (by decide) _)) ?_)
  match q, hrest with
  | none, hrest =>
    have hmarks : ∀ c ∈ rest.head?, c ≠ '?' ∧ c ≠ '+' ∧ c ≠ '*' := by
      intro c hc
      simpa [Nonterminal.Precedes] using hrest rfl c hc
    exact ends_opt_fail (ends_alt_right
      (ends_seq_fail (ends_exact_fail fun c hc => (hmarks c hc).1)) (ends_alt_right
      (ends_seq_fail (ends_exact_fail fun c hc => (hmarks c hc).2.1))
      (ends_seq_fail (ends_exact_fail fun c hc => (hmarks c hc).2.2))))
  | some .optional, _ =>
    exact ends_opt (ends_alt_left (ends_seq ends_exact (ends_reduce [Item.pattern atom.value] rfl)))
  | some .repeated, _ =>
    exact ends_opt (ends_alt_right (ends_seq_fail (ends_exact_ne (by decide))) (ends_alt_left
      (ends_seq ends_exact (ends_reduce [Item.pattern atom.value] rfl))))
  | some .any, _ =>
    exact ends_opt (ends_alt_right (ends_seq_fail (ends_exact_ne (by decide))) (ends_alt_right
      (ends_seq_fail (ends_exact_ne (by decide)))
      (ends_seq ends_exact (ends_reduce [Item.pattern atom.value] rfl))))

/-! ## Repetitions -/

/-- The body of a repetition reads an item behind its mark and joins the value to the one on the
stack. It fails where the repetition stops. -/
structure Repeater (m outer : Nonterminal) (mark : List Char) (body : Peg Nonterminal Item)
    (f : m.Value → m.Value → m.Value) : Prop where
  repeats : Repeats m mark outer
  turn : ∀ {input rest : List Char} {u v : m.Value} {stack : List Item} {d : Nat},
    Ends rules d (.call m) (m.item v :: stack) input
        (.matched (m.item u :: m.item v :: stack) rest) →
      Ends rules (d + 3) body (m.item v :: stack) (mark ++ input)
        (.matched (m.item (f v u) :: stack) rest)
  stop : ∀ {stack : List Item} {rest : List Char}, outer.Before rest →
    Ends rules m.cost body stack rest .failed

theorem repeater_mark {m outer : Nonterminal} {mark : Char} {join : Reducer}
    {f : m.Value → m.Value → m.Value} (repeats : Repeats m [mark] outer)
    (stop : ¬ outer.Precedes mark) (cost : 3 ≤ m.cost)
    (hjoin : ∀ a b, join [m.item a, m.item b] = some (m.item (f a b))) :
    Repeater m outer [mark] (exact mark ++ call m ++ reduce 2 join) f where
  repeats := repeats
  turn {_ _ u v _ d} h :=
    ends_seq (ends_seq ends_exact (h.mono (Nat.le_succ d)))
      (ends_reduce [m.item v, m.item u] (hjoin v u))
  stop {_ rest} hrest := by
    have hfail : ∀ c ∈ rest.head?, c ≠ mark := by
      rintro c hc rfl
      exact stop (hrest c hc)
    exact (ends_seq_fail (d := 2) (ends_seq_fail (ends_exact_fail hfail))).mono cost

theorem repeater_regex : Repeater .sequence .regex ['|']
    (exact '|' ++ call Nonterminal.sequence ++ reduce 2 (join fun a b => .alternative [a, b]))
    (fun a b => .alternative [a, b]) :=
  repeater_mark repeats_regex (by decide) (by decide) fun _ _ => rfl

theorem repeater_set : Repeater .meet .set ['|']
    (exact '|' ++ call Nonterminal.meet ++ reduce 2 (joinClasses fun a b => .union [a, b]))
    (fun a b => .union [a, b]) :=
  repeater_mark repeats_set (by decide) (by decide) fun _ _ => rfl

theorem repeater_meet : Repeater .factor .meet ['&']
    (exact '&' ++ call Nonterminal.factor ++ reduce 2 (joinClasses fun a b => .intersection [a, b]))
    (fun a b => .intersection [a, b]) :=
  repeater_mark repeats_meet (by decide) (by decide) fun _ _ => rfl

theorem repeater_sequence : Repeater .quantified .sequence []
    (call Nonterminal.quantified ++ reduce 2 (join fun a b => .concat [a, b]))
    (fun a b => .concat [a, b]) where
  repeats := repeats_sequence
  turn {_ _ u v _ d} h :=
    ends_seq (h.mono (Nat.le_add_right d 2)) (ends_reduce [Item.pattern v, .pattern u] rfl)
  stop hrest :=
    ends_seq_fail (fails_quantified fun c hc => Nonterminal.not_opens_quantified (hrest c hc))

/-- The turns of a repetition read its items, if each of them can be read, and fold their values
from the left. -/
theorem Repeater.turns {m outer : Nonterminal} {mark : List Char} {body : Peg Nonterminal Item}
    {f : m.Value → m.Value → m.Value} (h : Repeater m outer mark body f) :
    (ts : Derivations m) → (∀ t ∈ ts.toList, ∀ w, m.Before w → Accepts t w) → outer.Before rest →
    64 * (ts.written mark ++ rest).length + m.cost + 3 ≤ d → (v : m.Value) →
    (stack : List Item) →
    Turns rules d body (m.item v :: stack) (ts.written mark ++ rest)
      (m.item (ts.values.foldl f v) :: stack) rest
  | .nil, _, hrest, hd, _, _ => .stop ((h.stop hrest).mono (by omega))
  | .cons t ts, haccepts, hrest, hd, v, stack => by
    obtain ⟨ht, hts⟩ := List.forall_mem_cons.1 haccepts
    have hpos : 0 < (mark ++ t.written).length := h.repeats.length_pos t
    simp only [Derivations.written, List.length_append] at hd hpos
    have hread : Accepts t (ts.written mark ++ rest) := ht _ (h.repeats.before ts hrest)
    rw [Derivations.written, List.append_assoc, List.append_assoc]
    refine .turn ((h.turn (hread.ends (Nat.le_refl _))).mono ?_) ?_
      (h.turns ts hts hrest ?_ (f v t.value) stack)
    all_goals
      simp only [List.length_append]
      omega

theorem ends_separated {m : Nonterminal} {mark : Char} {reducer : Reducer} {v : m.Value}
    {last : List Item} {w : List Char}
    (hfirst : Ends rules (64 * input.length + m.cost) (.call m) stack input
      (.matched (m.item v :: stack) w))
    (hw : w.length ≤ input.length)
    (hturns : Turns rules (64 * w.length + m.cost + 3) (exact mark ++ call m ++ reduce 2 reducer)
      (m.item v :: stack) w last rest) :
    Ends rules (64 * input.length + m.cost + 5) (separated (call m) mark reducer) stack input
      (.matched last rest) := by
  refine ends_seq (hfirst.mono ?_) (ends_many (hturns.mono ?_) ?_)
  all_goals omega

/-- What is behind the first item is no longer than the input. -/
theorem Accepts.ends_separated {m : Nonterminal} {mark : Char} {reducer : Reducer}
    {first : Derivation m} {last : List Item} {w : List Char} (hfirst : Accepts first w)
    (hturns : Turns rules (64 * w.length + m.cost + 3) (exact mark ++ call m ++ reduce 2 reducer)
      (m.item first.value :: stack) w last rest) :
    Ends rules (64 * (first.written ++ w).length + m.cost + 5) (separated (call m) mark reducer)
      stack (first.written ++ w) (.matched last rest) :=
  Pattern.ends_separated (hfirst stack _ rfl) (by simp) hturns

theorem accepts_sequence {items : Derivations .quantified}
    (haccepts : ∀ t ∈ items.toList, ∀ w, Nonterminal.quantified.Before w → Accepts t w)
    (hrest : Nonterminal.sequence.Before rest) : Accepts (.sequence items) rest := by
  rintro stack _ rfl
  -- The machine concatenates one item at a time, which makes no difference for flat trees.
  have hvalue : (Derivation.sequence items).value =
      (items.values : List Pattern).foldl (fun a b => concat [a, b]) .emptyString :=
    (foldl_concat (Derivation.flat_values items)).symm
  have hlt : (items.written [] ++ rest).length < 64 * (items.written [] ++ rest).length + 23 := by
    omega
  rw [hvalue]
  exact ends_call rfl (ends_seq ends_push
    (ends_many (repeater_sequence.turns items haccepts hrest (Nat.le_refl _) _ stack) hlt))

theorem accepts_regex {first : Derivation .sequence} {more : Derivations .sequence}
    (hfirst : ∀ w, Nonterminal.sequence.Before w → Accepts first w)
    (haccepts : ∀ t ∈ more.toList, ∀ w, Nonterminal.sequence.Before w → Accepts t w)
    (hrest : Nonterminal.regex.Before rest) : Accepts (.regex first more) rest := by
  rintro stack _ rfl
  rw [Derivation.written, List.append_assoc]
  exact ends_call rfl ((hfirst _ (repeats_regex.before more hrest)).ends_separated
    (repeater_regex.turns more haccepts hrest (Nat.le_refl _) _ stack))

/-! ## All derivations -/

mutual

theorem accepts : {n : Nonterminal} → (t : Derivation n) → {rest : List Char} → n.Before rest →
    t.written.length < 2147483648 → Accepts t rest
  | _, .regex first more, _, hrest, hlength => by
    simp only [Derivation.written, List.length_append] at hlength
    exact accepts_regex (fun w hw => accepts first hw (by omega))
      (accepts_items ['|'] more (by omega)) hrest
  | _, .sequence items, _, hrest, hlength =>
    accepts_sequence (accepts_items [] items hlength) hrest
  | _, .quantified atom q, rest, hrest, hlength => by
    simp only [Derivation.written, List.length_append] at hlength
    exact accepts_quantified (accepts atom (fun _ _ => trivial) (by omega)) fun _ => hrest
  | _, .letter l, _, _, _ => accepts_letter
  | _, .oneOf s, rest, _, hlength => by
    simp only [Derivation.written, List.length_append, List.length_cons] at hlength
    exact accepts_oneOf (accepts s (Nonterminal.before_cons (by decide)) (by omega))
  | _, .group r, rest, _, hlength => by
    simp only [Derivation.written, List.length_append, List.length_cons] at hlength
    exact accepts_group (accepts r (Nonterminal.before_cons (by decide)) (by omega))
  | _, .set first more, rest, hrest, hlength => by
    simp only [Derivation.written, List.length_append] at hlength
    rintro stack _ rfl
    rw [Derivation.written, List.append_assoc]
    have hfirst := accepts first (repeats_set.before more hrest) (by omega)
    exact ends_call rfl (hfirst.ends_separated
      (repeater_set.turns more (accepts_items ['|'] more (by omega)) hrest (Nat.le_refl _) _ stack))
  | _, .meet first more, rest, hrest, hlength => by
    simp only [Derivation.written, List.length_append] at hlength
    rintro stack _ rfl
    rw [Derivation.written, List.append_assoc]
    have hfirst := accepts first (repeats_meet.before more hrest) (by omega)
    exact ends_call rfl (hfirst.ends_separated
      (repeater_meet.turns more (accepts_items ['&'] more (by omega)) hrest (Nat.le_refl _) _ stack))
  | _, .complement t, rest, hrest, hlength => by
    simp only [Derivation.written, List.length_cons] at hlength
    exact accepts_complement (accepts t hrest (by omega))
  | _, .factor t, _, hrest, hlength => accepts_factor (accepts t hrest hlength)
  | _, .only _, _, hrest, hlength => accepts_only hrest hlength
  | _, .atLeast start, rest, hrest, hlength => by
    simp only [Derivation.written, List.length_append] at hlength
    exact accepts_atLeast hrest (by omega)
  | _, .between _ _, _, hrest, hlength => accepts_between hrest hlength
  | _, .atMost stop, rest, hrest, hlength => by
    simp only [Derivation.written, List.length_cons] at hlength
    exact accepts_atMost hrest (by omega)
  | _, .setGroup s, rest, _, hlength => by
    simp only [Derivation.written, List.length_append, List.length_cons] at hlength
    exact accepts_setGroup (accepts s (Nonterminal.before_cons (by decide)) (by omega))
  | _, .setChar left c right, _, hrest, hlength => accepts_setChar hrest _ hlength
  | _, .setLiteral l, _, _, _ => accepts_setLiteral _

theorem accepts_items {n : Nonterminal} (mark : List Char) : (ts : Derivations n) →
    (ts.written mark).length < 2147483648 → ∀ t ∈ ts.toList, ∀ w, n.Before w → Accepts t w
  | .nil, _ => nofun
  | .cons t ts, hlength => by
    simp only [Derivations.written, List.length_append] at hlength
    exact List.forall_mem_cons.2
      ⟨fun w hw => accepts t hw (by omega), accepts_items mark ts (by omega)⟩

end

/-! ## The parser -/

theorem Accepts.parse_eq {text : String} {t : Derivation .regex} (h : Accepts t [])
    (ht : t.written = text.toList) : parse text = .ok t.value := by
  have hinput : t.written ++ [] = text.toList := by rw [List.append_nil, ht]
  have hdepth : 64 * text.toList.length + Nonterminal.regex.cost ≤ depth text.toList :=
    Nat.add_le_add_left (by decide) _
  rw [parse, h [] text.toList hinput (depth text.toList) hdepth]
  rfl

theorem parse_written {text : String} (hlength : text.length < 2147483648) {t : Derivation .regex}
    (ht : t.written = text.toList) : parse text = .ok t.value := by
  have hlt : t.written.length < 2147483648 := by rw [ht, String.length_toList]; exact hlength
  exact (accepts t Nonterminal.before_nil hlt).parse_eq ht

/-- A pattern is parsed to a tree if and only if the grammar derives it and the tree is what the
derivation denotes. There is no other derivation, and the tree is flat. -/
theorem parse_eq_ok_iff {text : String} (h : text.length < 2147483648) :
    (∀ p, parse text = .ok p ↔ ∃ t : Derivation .regex, t.written = text.toList ∧ t.value = p) ∧
      (∀ t t' : Derivation .regex, t.written = text.toList → t'.written = text.toList → t = t') ∧
      ∀ p, parse text = .ok p → p.Flat := by
  have hsound : ∀ p, parse text = .ok p →
      ∃ t : Derivation .regex, t.written = text.toList ∧ t.value = p := by
    intro p hp
    rcases parse_cases h with ⟨t, ht, hok⟩ | ⟨offset, -, herror⟩
    · exact ⟨t, ht, Except.ok.inj (hok.symm.trans hp)⟩
    · rw [herror] at hp
      cases hp
  refine ⟨fun p => ⟨hsound p, ?_⟩, fun t t' ht ht' => ?_, fun p hp => ?_⟩
  · rintro ⟨t, ht, rfl⟩
    exact parse_written h ht
  · exact Derivation.eq_of_written_eq (ht.trans ht'.symm)
  · obtain ⟨t, -, rfl⟩ := hsound p hp
    exact t.flat

/-- The derivation of `[a-c>]*`, a repeated class whose second endpoint is shifted. -/
def shiftedClass : Derivation .regex :=
  let start := .setChar 0 (.setLiteral (.literal 'a' (by decide) (by decide))) 0
  let stop := .setChar 0 (.setLiteral (.literal 'c' (by decide) (by decide))) 1
  let set := .set (.meet (.factor (.between start stop)) .nil) .nil
  .regex (.sequence (.cons (.quantified (.oneOf set) (some .any)) .nil)) .nil

theorem parse_shiftedClass : "[a-c>]*".length < 2147483648 ∧
    parse "[a-c>]*" =
      .ok (.optRep (.oneOf (.between (.single 'a') (.offset 1 (.single 'c')))) true true) := by
  have hlength : "[a-c>]*".length < 2147483648 := by decide
  exact ⟨hlength, ((parse_eq_ok_iff hlength).1 _).2 ⟨shiftedClass, by decide, rfl⟩⟩

end Munch.Pattern
