-- SUMMARY: The grammar of patterns is unambiguous: a text has at most one derivation.
import Munch.Proofs.Pattern.Derivation

/-! # Unambiguity

Two derivations from a symbol whose texts begin the same input are equal, if
both inputs go on with a character that may come after the symbol. -/

namespace Munch.Pattern

variable {rest rest' : List Char}

/-- A run of characters of one kind ends where the first character of another kind stands. -/
theorem span_unique {p : Char → Prop} (hrest : ∀ c ∈ rest.head?, ¬ p c)
    (hrest' : ∀ c ∈ rest'.head?, ¬ p c) :
    {cs cs' : List Char} → (∀ c ∈ cs, p c) → (∀ c ∈ cs', p c) → cs ++ rest = cs' ++ rest' →
      cs = cs' ∧ rest = rest'
  | [], [], _, _, h => ⟨rfl, h⟩
  | [], c :: cs', _, hcs', h => by
    cases show rest = c :: (cs' ++ rest') from h
    exact absurd (hcs' c List.mem_cons_self) (hrest c rfl)
  | c :: cs, [], hcs, _, h => by
    cases show c :: (cs ++ rest) = rest' from h
    exact absurd (hcs c List.mem_cons_self) (hrest' c rfl)
  | c :: cs, c' :: cs', hcs, hcs', h => by
    obtain ⟨rfl, htail⟩ := List.cons.inj h
    obtain ⟨rfl, hrest⟩ := span_unique hrest hrest' (List.forall_mem_cons.1 hcs).2
      (List.forall_mem_cons.1 hcs').2 htail
    exact ⟨rfl, hrest⟩

/-! ## Letters -/

theorem Letter.opens {level : Level} (l : Letter level) {c : Char} {v w : List Char}
    (h : l.written ++ v = c :: w) : c ∈ level.special.toList → c = '\\' := by
  obtain ⟨x, u, hu, hx⟩ := l.head
  rw [hu] at h
  exact (List.cons.inj h).1 ▸ hx

theorem not_isHexDigit_semicolon : ¬ IsHexDigit ';' := by
  unfold IsHexDigit
  decide

theorem Letter.unique {level : Level} (hspecial : '\\' ∈ level.special.toList)
    (hescapable : 'x' ∉ level.escapable.toList) (l l' : Letter level)
    (h : l.written ++ rest = l'.written ++ rest') : l = l' ∧ rest = rest' := by
  cases l with
  | literal c _ plain =>
    cases l' with
    | literal c' _ _ =>
      obtain ⟨rfl, rfl⟩ := List.cons.inj h
      exact ⟨rfl, rfl⟩
    | escape c' _ => exact absurd hspecial ((List.cons.inj h).1 ▸ plain)
    | hex ds' _ _ => exact absurd hspecial ((List.cons.inj h).1 ▸ plain)
  | escape c hc =>
    cases l' with
    | literal c' _ plain => exact absurd hspecial ((List.cons.inj h).1 ▸ plain)
    | escape c' _ =>
      obtain ⟨rfl, rfl⟩ := List.cons.inj (List.cons.inj h).2
      exact ⟨rfl, rfl⟩
    | hex ds' _ _ => exact absurd ((List.cons.inj (List.cons.inj h).2).1 ▸ hc) hescapable
  | hex ds _ hds =>
    cases l' with
    | literal c' _ plain => exact absurd hspecial ((List.cons.inj h).1 ▸ plain)
    | escape c' hc => exact absurd ((List.cons.inj (List.cons.inj h).2).1 ▸ hc) hescapable
    | hex ds' _ hds' =>
      have hend : ∀ w : List Char, ∀ c ∈ (';' :: w).head?, ¬ IsHexDigit c := by
        rintro w _ ⟨⟩
        exact not_isHexDigit_semicolon
      have hdigits : ds ++ ';' :: rest = ds' ++ ';' :: rest' := by simpa [written] using h
      obtain ⟨rfl, hrest⟩ := span_unique (hend rest) (hend rest') hds hds' hdigits
      exact ⟨rfl, (List.cons.inj hrest).2⟩

/-! ## Characters of a class -/

namespace Derivation

theorem setLiteral_unique : (t t' : Derivation .setLiteral) →
    t.written ++ rest = t'.written ++ rest' → t = t' ∧ rest = rest'
  | .setLiteral l, .setLiteral l', h => by
    obtain ⟨rfl, hrest⟩ := l.unique (by decide) (by decide) l' h
    exact ⟨rfl, hrest⟩

theorem setChar_unique (h : Nonterminal.setChar.Before rest)
    (h' : Nonterminal.setChar.Before rest') :
    (t t' : Derivation .setChar) → t.written ++ rest = t'.written ++ rest' → t = t' ∧ rest = rest'
  | .setChar left c right, .setChar left' c' right', heq => by
    have hopens : ∀ (c : Derivation .setLiteral) v, ∀ x ∈ (c.written ++ v).head?, ¬ x = '<' := by
      rintro c v _ hx rfl
      exact absurd (c.opens rfl (List.eq_cons_of_mem_head? hx)) (by decide)
    have hleft : List.replicate left '<' ++ (c.written ++ (List.replicate right '>' ++ rest)) =
        List.replicate left' '<' ++ (c'.written ++ (List.replicate right' '>' ++ rest')) := by
      simpa [written] using heq
    obtain ⟨hcount, hc⟩ := span_unique (hopens c _) (hopens c' _)
      (fun _ => List.eq_of_mem_replicate) (fun _ => List.eq_of_mem_replicate) hleft
    obtain ⟨rfl, hright⟩ := c.setLiteral_unique c' hc
    obtain ⟨hcount', hrest⟩ := span_unique h h' (fun _ => List.eq_of_mem_replicate)
      (fun _ => List.eq_of_mem_replicate) hright
    obtain ⟨rfl, -⟩ := List.replicate_inj.1 hcount
    obtain ⟨rfl, -⟩ := List.replicate_inj.1 hcount'
    exact ⟨rfl, hrest⟩

/-! ## Atoms of a class

For each way to begin, no other derivation gives the same text. -/

theorem before_setChar (h : Nonterminal.setAtom.Before rest) : Nonterminal.setChar.Before rest := by
  rintro c hc rfl
  exact absurd (h _ hc) (by decide)

theorem before_setChar_dash {w : List Char} : Nonterminal.setChar.Before ('-' :: w) :=
  Nonterminal.before_cons (by decide)

theorem not_before_dash {w : List Char} : ¬ Nonterminal.setAtom.Before ('-' :: w) :=
  fun h => absurd (h '-' rfl) (by decide)

theorem not_before_written (t : Derivation .setChar) {w : List Char} :
    ¬ Nonterminal.setAtom.Before (t.written ++ w) := by
  intro h
  obtain ⟨c, v, hv, hc⟩ := t.head rfl
  rw [hv] at h
  exact Nonterminal.not_opens_setChar (h c rfl) hc

section SetAtom

variable (h : Nonterminal.setAtom.Before rest) (h' : Nonterminal.setAtom.Before rest')

include h h'

theorem only_unique (c : Derivation .setChar) : (t' : Derivation .setAtom) →
    (only c).written ++ rest = t'.written ++ rest' → only c = t' ∧ rest = rest'
  | .only c', heq => by
    obtain ⟨rfl, hrest⟩ := setChar_unique (before_setChar h) (before_setChar h') c c' heq
    exact ⟨rfl, hrest⟩
  | .atLeast start', heq => by
    have hdash : c.written ++ rest = start'.written ++ '-' :: rest' := by simpa [written] using heq
    obtain ⟨rfl, rfl⟩ := setChar_unique (before_setChar h) before_setChar_dash c start' hdash
    exact absurd h not_before_dash
  | .between start' stop', heq => by
    have hdash : c.written ++ rest = start'.written ++ '-' :: (stop'.written ++ rest') := by
      simpa [written] using heq
    obtain ⟨rfl, rfl⟩ := setChar_unique (before_setChar h) before_setChar_dash c start' hdash
    exact absurd h not_before_dash
  | .atMost _, heq => absurd (c.opens rfl heq) (by decide)
  | .setGroup _, heq => absurd (c.opens rfl heq) (by decide)

theorem atLeast_unique (start : Derivation .setChar) : (t' : Derivation .setAtom) →
    (atLeast start).written ++ rest = t'.written ++ rest' → atLeast start = t' ∧ rest = rest'
  | .only c', heq => nomatch (only_unique h' h c' _ heq.symm).1
  | .atLeast start', heq => by
    have hdash : start.written ++ '-' :: rest = start'.written ++ '-' :: rest' := by
      simpa [written] using heq
    obtain ⟨rfl, hrest⟩ := setChar_unique before_setChar_dash before_setChar_dash start start' hdash
    exact ⟨rfl, (List.cons.inj hrest).2⟩
  | .between start' stop', heq => by
    have hdash : start.written ++ '-' :: rest =
        start'.written ++ '-' :: (stop'.written ++ rest') := by
      simpa [written] using heq
    obtain ⟨rfl, hrest⟩ := setChar_unique before_setChar_dash before_setChar_dash start start' hdash
    exact absurd ((List.cons.inj hrest).2 ▸ h) (not_before_written stop')
  | .atMost _, heq => absurd (start.opens rfl ((List.append_assoc ..).symm.trans heq)) (by decide)
  | .setGroup _, heq => absurd (start.opens rfl ((List.append_assoc ..).symm.trans heq)) (by decide)

theorem between_unique (start stop : Derivation .setChar) : (t' : Derivation .setAtom) →
    (between start stop).written ++ rest = t'.written ++ rest' →
      between start stop = t' ∧ rest = rest'
  | .only c', heq => nomatch (only_unique h' h c' _ heq.symm).1
  | .atLeast start', heq => nomatch (atLeast_unique h' h start' _ heq.symm).1
  | .between start' stop', heq => by
    have hdash : start.written ++ '-' :: (stop.written ++ rest) =
        start'.written ++ '-' :: (stop'.written ++ rest') := by simpa [written] using heq
    obtain ⟨rfl, hstop⟩ := setChar_unique before_setChar_dash before_setChar_dash start start' hdash
    obtain ⟨rfl, hrest⟩ := setChar_unique (before_setChar h) (before_setChar h') stop stop'
      (List.cons.inj hstop).2
    exact ⟨rfl, hrest⟩
  | .atMost _, heq => absurd (start.opens rfl ((List.append_assoc ..).symm.trans heq)) (by decide)
  | .setGroup _, heq => absurd (start.opens rfl ((List.append_assoc ..).symm.trans heq)) (by decide)

theorem atMost_unique (stop : Derivation .setChar) : (t' : Derivation .setAtom) →
    (atMost stop).written ++ rest = t'.written ++ rest' → atMost stop = t' ∧ rest = rest'
  | .only c', heq => nomatch (only_unique h' h c' _ heq.symm).1
  | .atLeast start', heq => nomatch (atLeast_unique h' h start' _ heq.symm).1
  | .between start' stop', heq => nomatch (between_unique h' h start' stop' _ heq.symm).1
  | .atMost stop', heq => by
    obtain ⟨rfl, hrest⟩ := setChar_unique (before_setChar h) (before_setChar h') stop stop'
      (List.cons.inj heq).2
    exact ⟨rfl, hrest⟩
  | .setGroup _, heq => absurd (List.cons.inj heq).1 (by decide)

end SetAtom

/-! ## Atoms and factors -/

theorem letter_unique (l : Letter .outer) : (t' : Derivation .atom) →
    (letter l).written ++ rest = t'.written ++ rest' → letter l = t' ∧ rest = rest'
  | .letter l', heq => by
    obtain ⟨rfl, hrest⟩ := l.unique (by decide) (by decide) l' heq
    exact ⟨rfl, hrest⟩
  | .oneOf _, heq => absurd (l.opens heq (by decide)) (by decide)
  | .group _, heq => absurd (l.opens heq (by decide)) (by decide)

theorem complement_ne_factor (t t' : Derivation .setAtom) :
    (complement t).written ++ rest ≠ (factor t').written ++ rest' :=
  fun heq => absurd (t'.opens rfl heq.symm) (by decide)

/-! ## Quantifiers -/

theorem mark_injective : Function.Injective Quantifier.mark := by
  intro q q'
  cases q <;> cases q' <;> simp [Quantifier.mark]

theorem quantifier_unique (h : Nonterminal.quantified.Before rest)
    (h' : Nonterminal.quantified.Before rest') {q q' : Option Quantifier}
    (heq : (q.map Quantifier.mark).toList ++ rest = (q'.map Quantifier.mark).toList ++ rest') :
    q = q' ∧ rest = rest' := by
  have hmark : ∀ (q : Quantifier) w, ¬ Nonterminal.quantified.Before (q.mark :: w) := by
    intro q w hbefore
    have hnot := hbefore q.mark rfl
    cases q <;> exact absurd hnot (by decide)
  match q, q' with
  | none, none => exact ⟨rfl, heq⟩
  | none, some q' =>
    have hrest : rest = q'.mark :: rest' := heq
    exact absurd (hrest ▸ h) (hmark q' rest')
  | some q, none =>
    have hrest : q.mark :: rest = rest' := heq
    exact absurd (hrest ▸ h') (hmark q rest)
  | some q, some q' =>
    obtain ⟨hq, hrest⟩ := List.cons.inj heq
    exact ⟨congrArg some (mark_injective hq), hrest⟩

/-! ## All derivations -/

-- By recursion on the first derivation. The second has the same symbol, and a different production
-- would begin with another character, or go on with one behind the part they have in common.
mutual

/-- If two texts of a symbol begin the same input, they are derived in the same way. -/
theorem unique : {n : Nonterminal} → (t t' : Derivation n) → {rest rest' : List Char} →
    n.Before rest → n.Before rest' → t.written ++ rest = t'.written ++ rest' → t = t' ∧ rest = rest'
  | _, .regex first more, .regex first' more', rest, rest', h, h', heq => by
    rw [written, written, List.append_assoc, List.append_assoc] at heq
    obtain ⟨rfl, hmore⟩ := unique first first' (repeats_regex.before more h)
      (repeats_regex.before more' h') heq
    obtain ⟨rfl, hrest⟩ := unique_all repeats_regex more more' h h' hmore
    exact ⟨rfl, hrest⟩
  | _, .sequence items, .sequence items', rest, rest', h, h', heq => by
    obtain ⟨rfl, hrest⟩ := unique_all repeats_sequence items items' h h' heq
    exact ⟨rfl, hrest⟩
  | _, .quantified atom q, .quantified atom' q', rest, rest', h, h', heq => by
    rw [written, written, List.append_assoc, List.append_assoc] at heq
    obtain ⟨rfl, hmark⟩ := unique atom atom' (fun _ _ => trivial) (fun _ _ => trivial) heq
    obtain ⟨rfl, hrest⟩ := quantifier_unique h h' hmark
    exact ⟨rfl, hrest⟩
  | _, .letter l, t', rest, rest', _, _, heq => letter_unique l t' heq
  | _, .oneOf s, .letter l', rest, rest', _, _, heq =>
    nomatch (letter_unique l' (oneOf s) heq.symm).1
  | _, .oneOf s, .oneOf s', rest, rest', _, _, heq => by
    have hbracket : s.written ++ ']' :: rest = s'.written ++ ']' :: rest' := by
      simpa [written] using heq
    obtain ⟨rfl, hrest⟩ := unique s s' (Nonterminal.before_cons (by decide))
      (Nonterminal.before_cons (by decide)) hbracket
    exact ⟨rfl, (List.cons.inj hrest).2⟩
  | _, .oneOf s, .group r', rest, rest', _, _, heq => absurd (List.cons.inj heq).1 (by decide)
  | _, .group r, .letter l', rest, rest', _, _, heq =>
    nomatch (letter_unique l' (group r) heq.symm).1
  | _, .group r, .oneOf s', rest, rest', _, _, heq => absurd (List.cons.inj heq).1 (by decide)
  | _, .group r, .group r', rest, rest', _, _, heq => by
    have hbracket : r.written ++ ')' :: rest = r'.written ++ ')' :: rest' := by
      simpa [written] using heq
    obtain ⟨rfl, hrest⟩ := unique r r' (Nonterminal.before_cons (by decide))
      (Nonterminal.before_cons (by decide)) hbracket
    exact ⟨rfl, (List.cons.inj hrest).2⟩
  | _, .set first more, .set first' more', rest, rest', h, h', heq => by
    rw [written, written, List.append_assoc, List.append_assoc] at heq
    obtain ⟨rfl, hmore⟩ := unique first first' (repeats_set.before more h)
      (repeats_set.before more' h') heq
    obtain ⟨rfl, hrest⟩ := unique_all repeats_set more more' h h' hmore
    exact ⟨rfl, hrest⟩
  | _, .meet first more, .meet first' more', rest, rest', h, h', heq => by
    rw [written, written, List.append_assoc, List.append_assoc] at heq
    obtain ⟨rfl, hmore⟩ := unique first first' (repeats_meet.before more h)
      (repeats_meet.before more' h') heq
    obtain ⟨rfl, hrest⟩ := unique_all repeats_meet more more' h h' hmore
    exact ⟨rfl, hrest⟩
  | _, .complement t, .complement t', rest, rest', h, h', heq => by
    obtain ⟨rfl, hrest⟩ := unique t t' h h' (List.cons.inj heq).2
    exact ⟨rfl, hrest⟩
  | _, .complement t, .factor t', rest, rest', _, _, heq => absurd heq (complement_ne_factor t t')
  | _, .factor t, .complement t', rest, rest', _, _, heq =>
    absurd heq.symm (complement_ne_factor t' t)
  | _, .factor t, .factor t', rest, rest', h, h', heq => by
    obtain ⟨rfl, hrest⟩ := unique t t' h h' heq
    exact ⟨rfl, hrest⟩
  | _, .only c, t', rest, rest', h, h', heq => only_unique h h' c t' heq
  | _, .atLeast start, t', rest, rest', h, h', heq => atLeast_unique h h' start t' heq
  | _, .between start stop, t', rest, rest', h, h', heq => between_unique h h' start stop t' heq
  | _, .atMost stop, t', rest, rest', h, h', heq => atMost_unique h h' stop t' heq
  | _, .setGroup s, .only c', rest, rest', h, h', heq =>
    nomatch (only_unique h' h c' _ heq.symm).1
  | _, .setGroup s, .atLeast start', rest, rest', h, h', heq =>
    nomatch (atLeast_unique h' h start' _ heq.symm).1
  | _, .setGroup s, .between start' stop', rest, rest', h, h', heq =>
    nomatch (between_unique h' h start' stop' _ heq.symm).1
  | _, .setGroup s, .atMost stop', rest, rest', h, h', heq =>
    nomatch (atMost_unique h' h stop' _ heq.symm).1
  | _, .setGroup s, .setGroup s', rest, rest', _, _, heq => by
    have hbracket : s.written ++ ')' :: rest = s'.written ++ ')' :: rest' := by
      simpa [written] using heq
    obtain ⟨rfl, hrest⟩ := unique s s' (Nonterminal.before_cons (by decide))
      (Nonterminal.before_cons (by decide)) hbracket
    exact ⟨rfl, (List.cons.inj hrest).2⟩
  | _, .setChar left c right, t', rest, rest', h, h', heq => setChar_unique h h' _ t' heq
  | _, .setLiteral l, t', rest, rest', _, _, heq => setLiteral_unique _ t' heq

/-- Repetitions stop at the same place and have the same items. -/
theorem unique_all {m outer : Nonterminal} {mark : List Char} (hrepeats : Repeats m mark outer) :
    (ts ts' : Derivations m) → {rest rest' : List Char} → outer.Before rest → outer.Before rest' →
    ts.written mark ++ rest = ts'.written mark ++ rest' → ts = ts' ∧ rest = rest'
  | .nil, .nil, rest, rest', _, _, heq => ⟨rfl, heq⟩
  | .nil, .cons t' ts', rest, rest', h, _, heq => by
    have hrest : rest = mark ++ (t'.written ++ (ts'.written mark ++ rest')) := by
      simpa [Derivations.written] using heq
    exact absurd (hrest ▸ h) (hrepeats.stop t' _)
  | .cons t ts, .nil, rest, rest', _, h', heq => by
    have hrest : mark ++ (t.written ++ (ts.written mark ++ rest)) = rest' := by
      simpa [Derivations.written] using heq
    exact absurd (hrest ▸ h') (hrepeats.stop t _)
  | .cons t ts, .cons t' ts', rest, rest', h, h', heq => by
    have hitems : t.written ++ (ts.written mark ++ rest) =
        t'.written ++ (ts'.written mark ++ rest') := by
      simpa [Derivations.written] using heq
    obtain ⟨rfl, htail⟩ := unique t t' (hrepeats.before ts h) (hrepeats.before ts' h') hitems
    obtain ⟨rfl, hrest⟩ := unique_all hrepeats ts ts' h h' htail
    exact ⟨rfl, hrest⟩

end

theorem eq_of_written_eq {n : Nonterminal} {t t' : Derivation n} (h : t.written = t'.written) :
    t = t' := by
  have heq : t.written ++ [] = t'.written ++ [] := congrArg (· ++ []) h
  exact (t.unique t' Nonterminal.before_nil Nonterminal.before_nil heq).1

end Derivation

end Munch.Pattern
