-- SUMMARY: The parser never gets stuck, and every rule reads a text that its symbol derives.
import Munch.Proofs.Pattern.Derivation
import Munch.Proofs.Peg

/-! # The rules of the grammar on the machine

Every rule is safe on any stack and any input: it fails, or it reads a text of
its symbol and pushes the value of a derivation of that text. The depth grows
with the length of the input and with a constant for the symbol, which covers
the calls that are made before the next character is read. -/

namespace Munch.Pattern

open Peg (Safe exact take many many1 reduce)
open Reducer (appendDigit moveShift)

variable {d : Nat} {stack : List Item} {input : List Char}

/-! ## Letters -/

theorem safe_digit {ds : List Char} :
    Safe rules (d + 2) (take hexDigits Item.char ++ reduce 2 appendDigit) (.digits ds :: stack) input
      fun stack' rest => ∃ c, IsHexDigit c ∧ input = c :: rest ∧
        stack' = .digits (ds ++ [c]) :: stack := by
  refine .seq (.take fun c hc rest hinput => ?_)
  exact .reduce [Item.digits ds, .char c] rfl ⟨c, mem_hexDigits.1 hc, hinput, rfl⟩

/-- The digits that were read of the input, one or more. -/
def ReadsDigits (stack : List Item) (input : List Char) (stack' : List Item) (rest : List Char) :
    Prop :=
  ∃ ds, ds ≠ [] ∧ (∀ c ∈ ds, IsHexDigit c) ∧ input = ds ++ rest ∧ stack' = .digits ds :: stack

theorem safe_digits (hd : input.length < d + 2) :
    Safe rules (d + 3) (many1 (take hexDigits Item.char ++ reduce 2 appendDigit))
      (.digits [] :: stack) input (ReadsDigits stack input) := by
  refine .many1 (safe_digit.imp ?_) ?_ hd
  · rintro stack' rest ⟨c, hc, rfl, rfl⟩
    exact ⟨⟨[c], by simp, by simpa using hc, rfl, rfl⟩, by simp⟩
  · rintro _ rest ⟨ds, hne, hds, rfl, rfl⟩
    refine safe_digit.imp ?_
    rintro stack' rest' ⟨c, hc, rfl, rfl⟩
    refine ⟨⟨ds ++ [c], by simp, ?_, by simp, rfl⟩, by simp⟩
    intro c' hc'
    rcases List.mem_append.1 hc' with hc' | hc'
    · exact hds c' hc'
    · exact List.mem_singleton.1 hc' ▸ hc

theorem safe_hexEscape (hd : input.length < d + 2) :
    Safe rules (d + 6) hexEscape stack input fun stack' rest =>
      ∃ ds, ds ≠ [] ∧ (∀ c ∈ ds, IsHexDigit c) ∧ input = 'x' :: ds ++ ';' :: rest ∧
        stack' = .digits ds :: stack := by
  refine .seq (.seq (.seq (.seq (.exact fun rest hx => .push ?_))))
  subst hx
  refine (safe_digits (by simp only [List.length_cons] at hd; omega)).imp ?_
  rintro _ rest ⟨ds, hne, hds, rfl, rfl⟩
  refine .take fun c hc rest hrest => .drop ?_
  cases RangeSet.mem_only.1 hc
  subst hrest
  exact ⟨ds, hne, hds, by simp, rfl⟩

theorem safe_letter {level : Level} {β : Type} {item : β → Item} {single escaped : Char → β}
    {coded : List Char → β} {hex : Reducer}
    (hhex : ∀ ds, hex [.digits ds] = some (item (coded ds))) :
    Safe rules (64 * input.length + 12)
      (letter level (fun c => item (single c)) (fun c => item (escaped c)) hex) stack input
      fun stack' rest => ∃ l : Letter level,
        input = l.written ++ rest ∧ stack' = item (l.value single escaped coded) :: stack := by
  refine .alt (.take fun c hc rest hinput => ?_) (.seq (.exact fun rest hinput => ?_))
  · obtain ⟨hprintable, hplain⟩ := Level.mem_literals.1 hc
    exact ⟨.literal c hprintable hplain, hinput, rfl⟩
  subst hinput
  refine .alt (.take fun c hc rest' hrest => ?_) (.seq ?_)
  · subst hrest
    exact ⟨.escape c (Level.mem_escapes.1 hc), rfl, rfl⟩
  · refine (safe_hexEscape (d := rest.length) (by omega)).mono
      (by simp only [List.length_cons]; omega) ?_
    rintro _ rest' ⟨ds, hne, hds, rfl, rfl⟩
    exact .reduce [Item.digits ds] (hhex ds) ⟨.hex ds hne hds, by simp [Letter.written], rfl⟩

/-! ## Rules -/

/-- A text of the symbol was read, and the value of a derivation pushed. -/
def Reads (n : Nonterminal) (stack : List Item) (input : List Char) (stack' : List Item)
    (rest : List Char) : Prop :=
  ∃ d : Derivation n, input = d.written ++ rest ∧ stack' = n.item d.value :: stack

/-- How deep the rule goes before it reads a character. -/
def Nonterminal.cost : Nonterminal → Nat
  | .setLiteral => 14
  | .setChar => 22
  | .setAtom => 28
  | .factor => 32
  | .meet => 38
  | .set => 44
  | .atom => 16
  | .quantified => 20
  | .sequence => 26
  | .regex => 32

theorem Nonterminal.cost_le (n : Nonterminal) : n.cost ≤ 64 := by
  cases n <;> decide

/-- The rule of the symbol is safe on the input. -/
def SafeAt (n : Nonterminal) (input : List Char) : Prop :=
  ∀ stack, Safe rules (64 * input.length + n.cost) (.call n) stack input (Reads n stack input)

theorem SafeAt.mono {n : Nonterminal} (h : SafeAt n input)
    (hd : 64 * input.length + n.cost ≤ d) {post : List Item → List Char → Prop}
    (hpost : ∀ (t : Derivation n) rest, input = t.written ++ rest →
      post (n.item t.value :: stack) rest) : Safe rules d (.call n) stack input post := by
  refine (h stack).mono hd ?_
  rintro _ rest ⟨t, hinput, rfl⟩
  exact hpost t rest hinput

/-- Behind a character that was read there is depth for any rule. -/
theorem SafeAt.after {n : Nonterminal} {c : Char} {rest : List Char} (h : SafeAt n rest)
    {post : List Item → List Char → Prop}
    (hpost : ∀ (t : Derivation n) rest', rest = t.written ++ rest' →
      post (n.item t.value :: stack) rest') :
    Safe rules (64 * (c :: rest).length + d) (.call n) stack rest post := by
  have := n.cost_le
  exact h.mono (by simp only [List.length_cons]; omega) hpost

/-! ### Separated items -/

/-- If an item is safe, so are items with marks between them, and what they push is folded from
the left. -/
theorem safe_separated {n : Nonterminal} {mark : Char} {join : Reducer}
    {f : n.Value → n.Value → n.Value}
    (hjoin : ∀ a b, join [n.item a, n.item b] = some (n.item (f a b)))
    (h : ∀ rest, rest.length ≤ input.length → SafeAt n rest) :
    Safe rules (64 * input.length + n.cost + 5) (.separated (.call n) mark join) stack input
      fun stack' rest => ∃ (first : Derivation n) (more : List (Derivation n)),
        input = first.written ++ (Derivations.ofList more).written [mark] ++ rest ∧
          stack' = n.item ((Derivations.ofList more).values.foldl f first.value) :: stack := by
  refine .seq ((h input (Nat.le_refl _)).mono (by omega) fun first rest hinput => ?_)
  refine .many ?_ ⟨first, [], by simpa [Derivations.written] using hinput, rfl⟩
    (by rw [hinput]; simp only [List.length_append]; omega)
  rintro _ rest ⟨first, more, hinput, rfl⟩
  refine .seq (.seq (.exact fun rest' hrest => ?_))
  subst hrest
  have hlength := congrArg List.length hinput
  simp only [List.length_append, List.length_cons] at hlength
  refine (h rest' (by omega)).mono (by omega) fun t rest hrest => ?_
  subst hrest
  refine .reduce [n.item _, n.item t.value] (hjoin _ _) ⟨⟨first, more ++ [t], ?_, ?_⟩, ?_⟩
  · simp [hinput]
  · simp
  · simp only [List.length_append, List.length_cons]; omega

/-! ### Classes -/

theorem safe_setLiteral : SafeAt .setLiteral input := by
  intro stack
  refine .call rfl ((safe_letter (fun _ => rfl)).mono (by simp) ?_)
  rintro _ rest ⟨l, hinput, rfl⟩
  exact ⟨.setLiteral l, hinput, rfl⟩

theorem moveShift_mul {step : Int} (hstep : step = -1 ∨ step = 1) {count : Nat}
    (hcount : count + 1 < 2147483648) :
    moveShift step [.shift (count * step)] = some (.shift ((count + 1 : Nat) * step)) := by
  have heq : (count * step + step : Int) = (count + 1 : Nat) * step := by
    rcases hstep with rfl | rfl <;> omega
  rw [moveShift, Reducer.sum?, heq, if_pos]
  · rfl
  · rcases hstep with rfl | rfl <;> omega

theorem applyShifts_eq {left right : Nat} (hleft : left < 2147483648) (hright : right < 2147483648)
    (t : Derivation .setLiteral) :
    Reducer.applyShifts [.shift (left * -1), .classChar t.value, .shift (right * 1)] =
      some (.classChar (Derivation.setChar left t right).value) := by
  have heq : (left * -1 + right * 1 : Int) = right - left := by omega
  rw [Reducer.applyShifts, Reducer.sum?, heq, if_pos (by omega), Option.map_some, ClassChar.shift,
    Derivation.value]
  simp only [Int.sub_eq_zero, Int.natCast_inj]

/-- Marks before or after a character shift it by one each. -/
theorem safe_marks {mark : Char} {step : Int} (hstep : step = -1 ∨ step = 1)
    (hlength : input.length < 2147483648) (hd : input.length < d + 2) :
    Safe rules (d + 3) (many (exact mark ++ reduce 1 (moveShift step)))
      (.shift 0 :: stack) input fun stack' rest =>
        ∃ count : Nat, input = .replicate count mark ++ rest ∧
          stack' = .shift (count * step) :: stack := by
  refine .many ?_ ⟨0, rfl, by simp⟩ hd
  rintro _ rest ⟨count, rfl, rfl⟩
  refine .seq (.exact fun rest' hrest => ?_)
  subst hrest
  have hcount : count + 1 < 2147483648 := by
    simp only [List.length_append, List.length_replicate, List.length_cons] at hlength
    omega
  refine .reduce [Item.shift (count * step)] (moveShift_mul hstep hcount)
    ⟨⟨count + 1, ?_, rfl⟩, by simp⟩
  rw [List.replicate_succ', List.append_assoc]
  rfl

theorem safe_setChar (hlength : input.length < 2147483648) : SafeAt .setChar input := by
  intro stack
  refine .call rfl (.seq (.seq (.seq (.seq (.seq (.push ?_))))))
  refine (safe_marks (.inl rfl) hlength (by omega)).imp ?_
  rintro _ rest ⟨left, rfl, rfl⟩
  refine safe_setLiteral.mono (by simp only [Nonterminal.cost, List.length_append]; omega)
    fun t rest' hrest => ?_
  subst hrest
  refine .push ?_
  refine (safe_marks (d := rest'.length) (.inr rfl)
    (by simp only [List.length_append] at hlength; omega) (by omega)).mono
    (by simp only [List.length_append]; omega) ?_
  rintro _ rest ⟨right, rfl, rfl⟩
  simp only [List.length_append, List.length_replicate] at hlength
  refine .reduce [Item.shift (left * -1), .classChar t.value, .shift (right * 1)]
    (applyShifts_eq (by omega) (by omega) t) ?_
  exact ⟨.setChar left t right, by simp [Derivation.written], rfl⟩

/-! ### Groups

The rules that come back to themselves do so behind a bracket, with less input. -/

section Groups

variable {bound : Nat} (ih : ∀ rest, rest.length < bound → SafeAt .set rest)

include ih

theorem safe_setAtom (hbound : input.length ≤ bound) (hlength : input.length < 2147483648) :
    SafeAt .setAtom input := by
  intro stack
  refine .call rfl (.alt (.seq ?_) (.alt (.seq (.seq (.exact fun rest hrest => ?_)))
    (.seq (.seq (.exact fun rest hrest => ?_)))))
  · -- A character, and perhaps a mark and another one.
    refine (safe_setChar hlength).mono (by simp [Nonterminal.cost]) fun start rest hinput => ?_
    subst hinput
    refine .alt (.seq (.exact fun rest' hrest => ?_)) ?_
    · subst hrest
      refine .alt (.seq ?_) ?_
      · simp only [List.length_append, List.length_cons] at hlength
        refine (safe_setChar (by omega)).mono
          (by simp only [Nonterminal.cost, List.length_append, List.length_cons]; omega)
          fun stop rest hinput => ?_
        subst hinput
        refine .reduce [Item.classChar start.value, .classChar stop.value] rfl ?_
        exact ⟨.between start stop, by simp [Derivation.written], rfl⟩
      · refine .reduce [Item.classChar start.value] rfl ?_
        exact ⟨.atLeast start, by simp [Derivation.written], rfl⟩
    · refine .reduce [Item.classChar start.value] rfl ?_
      exact ⟨.only start, rfl, rfl⟩
  · subst hrest
    refine (safe_setChar (Nat.lt_of_succ_lt hlength)).after fun stop rest' hinput => ?_
    subst hinput
    refine .reduce [Item.classChar stop.value] rfl ?_
    exact ⟨.atMost stop, rfl, rfl⟩
  · subst hrest
    refine (ih rest hbound).after fun s rest' hinput => ?_
    subst hinput
    refine .exact fun rest hrest => ?_
    subst hrest
    exact ⟨.setGroup s, by simp [Derivation.written], rfl⟩

theorem safe_factor (hbound : input.length ≤ bound) (hlength : input.length < 2147483648) :
    SafeAt .factor input := by
  intro stack
  refine .call rfl (.alt (.seq (.seq (.exact fun rest hrest => ?_))) ?_)
  · subst hrest
    refine (safe_setAtom ih (Nat.le_of_succ_le hbound) (Nat.lt_of_succ_lt hlength)).after
      fun t rest' hinput => ?_
    subst hinput
    refine .reduce [Item.charClass t.value] rfl ?_
    exact ⟨.complement t, rfl, rfl⟩
  · refine (safe_setAtom ih hbound hlength).mono (by simp [Nonterminal.cost])
      fun t rest hinput => ?_
    exact ⟨.factor t, hinput, rfl⟩

theorem safe_meet (hbound : input.length ≤ bound) (hlength : input.length < 2147483648) :
    SafeAt .meet input := by
  intro stack
  refine .call rfl ((safe_separated (fun _ _ => rfl) fun rest hrest =>
    safe_factor ih (by omega) (by omega)).imp ?_)
  rintro _ rest ⟨first, more, hinput, rfl⟩
  exact ⟨.meet first (.ofList more), hinput, rfl⟩

end Groups

theorem safe_set (hlength : input.length < 2147483648) : SafeAt .set input := by
  induction hbound : input.length using Nat.strongRecOn generalizing input with
  | ind bound ihbound =>
    have ih : ∀ rest, rest.length < bound → SafeAt .set rest :=
      fun rest hrest => ihbound rest.length hrest (by omega) rfl
    intro stack
    refine .call rfl ((safe_separated (fun _ _ => rfl) fun rest hrest =>
      safe_meet ih (by omega) (by omega)).imp ?_)
    rintro _ rest ⟨first, more, hinput, rfl⟩
    exact ⟨.set first (.ofList more), hinput, rfl⟩

/-! ### Patterns -/

/-- What the items that were read of a sequence have put on the stack: a single concatenation. -/
def ReadsItems (stack : List Item) (input : List Char) (stack' : List Item) (rest : List Char) :
    Prop :=
  ∃ items : List (Derivation .quantified), input = (Derivations.ofList items).written [] ++ rest ∧
    stack' =
      .pattern ((items.map Derivation.value).foldl (fun a b => concat [a, b]) .emptyString) :: stack

section Groups

variable {bound : Nat} (ih : ∀ rest, rest.length < bound → SafeAt .regex rest)

include ih

theorem safe_atom (hbound : input.length ≤ bound) (hlength : input.length < 2147483648) :
    SafeAt .atom input := by
  intro stack
  refine .call rfl (.alt ?_ (.alt (.seq (.seq (.seq (.exact fun rest hrest => ?_))))
    (.seq (.seq (.exact fun rest hrest => ?_)))))
  · refine (safe_letter (fun _ => rfl)).mono (by simp) ?_
    rintro _ rest ⟨l, hinput, rfl⟩
    exact ⟨.letter l, hinput, rfl⟩
  · subst hrest
    refine (safe_set (Nat.lt_of_succ_lt hlength)).after fun s rest' hinput => ?_
    subst hinput
    refine .exact fun rest hrest => ?_
    subst hrest
    refine .reduce [Item.charClass s.value] rfl ?_
    exact ⟨.oneOf s, by simp [Derivation.written], rfl⟩
  · subst hrest
    refine (ih rest hbound).after fun r rest' hinput => ?_
    subst hinput
    refine .exact fun rest hrest => ?_
    subst hrest
    exact ⟨.group r, by simp [Derivation.written], rfl⟩

theorem safe_quantified (hbound : input.length ≤ bound) (hlength : input.length < 2147483648) :
    SafeAt .quantified input := by
  intro stack
  refine .call rfl (.seq ((safe_atom ih hbound hlength).mono (by simp [Nonterminal.cost])
    fun atom rest hinput => ?_))
  subst hinput
  have hreads : ∀ (q : Option Quantifier) rest' (v : Pattern),
      rest = (q.map Quantifier.mark).toList ++ rest' → v = (Derivation.quantified atom q).value →
      Reads .quantified stack (atom.written ++ rest) (.pattern v :: stack) rest' := by
    rintro q rest' _ rfl rfl
    exact ⟨.quantified atom q, by simp [Derivation.written], rfl⟩
  refine .opt (.alt (.seq (.exact fun rest' hrest => ?_))
    (.alt (.seq (.exact fun rest' hrest => ?_)) (.seq (.exact fun rest' hrest => ?_))))
    (hreads none rest _ rfl rfl)
  · exact .reduce [Item.pattern atom.value] rfl (hreads (some .optional) rest' _ hrest rfl)
  · exact .reduce [Item.pattern atom.value] rfl (hreads (some .repeated) rest' _ hrest rfl)
  · exact .reduce [Item.pattern atom.value] rfl (hreads (some .any) rest' _ hrest rfl)

theorem safe_sequence (hbound : input.length ≤ bound) (hlength : input.length < 2147483648) :
    SafeAt .sequence input := by
  intro stack
  refine .call rfl (.seq (.push ?_))
  have hstart : ReadsItems stack input (.pattern .emptyString :: stack) input := ⟨[], rfl, rfl⟩
  refine (Safe.many ?_ hstart (by omega)).imp ?_
  · rintro _ rest ⟨items, hinput, rfl⟩
    have hrest : rest.length ≤ input.length := by rw [hinput]; simp
    refine .seq ((safe_quantified ih (by omega) (by omega)).mono
      (by simp only [Nonterminal.cost]; omega) fun t rest' hinput' => ?_)
    obtain ⟨c, w, hw, -⟩ := t.head rfl
    refine .reduce [Item.pattern _, .pattern t.value] rfl ⟨⟨items ++ [t], ?_, ?_⟩, ?_⟩
    · simp [hinput, hinput']
    · simp
    · simp only [hinput', hw, List.length_append, List.length_cons]; omega
  · rintro _ rest ⟨items, hinput, rfl⟩
    refine ⟨.sequence (.ofList items), hinput, ?_⟩
    have hflat : ∀ p ∈ items.map Derivation.value, Pattern.Flat p := by
      rw [← Derivations.values_ofList]
      exact Derivation.flat_values (.ofList items)
    rw [foldl_concat hflat, Derivation.value, Derivations.values_ofList]
    rfl

end Groups

theorem safe_regex (hlength : input.length < 2147483648) : SafeAt .regex input := by
  induction hbound : input.length using Nat.strongRecOn generalizing input with
  | ind bound ihbound =>
    have ih : ∀ rest, rest.length < bound → SafeAt .regex rest :=
      fun rest hrest => ihbound rest.length hrest (by omega) rfl
    intro stack
    refine .call rfl ((safe_separated (fun _ _ => rfl) fun rest hrest =>
      safe_sequence ih (by omega) (by omega)).imp ?_)
    rintro _ rest ⟨first, more, hinput, rfl⟩
    exact ⟨.regex first (.ofList more), hinput, rfl⟩

/-- Every rule of the grammar is safe. -/
theorem safe_rule (n : Nonterminal) (hlength : input.length < 2147483648) : SafeAt n input := by
  have hset : ∀ rest, rest.length < input.length → SafeAt .set rest :=
    fun rest hrest => safe_set (by omega)
  have hregex : ∀ rest, rest.length < input.length → SafeAt .regex rest :=
    fun rest hrest => safe_regex (by omega)
  cases n with
  | regex => exact safe_regex hlength
  | sequence => exact safe_sequence hregex (Nat.le_refl _) hlength
  | quantified => exact safe_quantified hregex (Nat.le_refl _) hlength
  | atom => exact safe_atom hregex (Nat.le_refl _) hlength
  | set => exact safe_set hlength
  | meet => exact safe_meet hset (Nat.le_refl _) hlength
  | factor => exact safe_factor hset (Nat.le_refl _) hlength
  | setAtom => exact safe_setAtom hset (Nat.le_refl _) hlength
  | setChar => exact safe_setChar hlength
  | setLiteral => exact safe_setLiteral

/-- The depth that the parser gives to the machine is enough for every rule. -/
theorem ends_rule (n : Nonterminal) (stack : List Item) (hlength : input.length < 2147483648) :
    Peg.Ends rules (depth input) (.call n) stack input .failed ∨
      ∃ (t : Derivation n) (rest : List Char), input = t.written ++ rest ∧
        Peg.Ends rules (depth input) (.call n) stack input
          (.matched (n.item t.value :: stack) rest) := by
  have hdepth : 64 * input.length + n.cost ≤ depth input := by
    have := n.cost_le
    rw [depth]
    omega
  rcases safe_rule n hlength stack with h | ⟨_, rest, h, t, hinput, rfl⟩
  · exact .inl (h.mono hdepth)
  · exact .inr ⟨t, rest, hinput, h.mono hdepth⟩

/-! ## The parser -/

/-- The text has a derivation, or only a part of it could be read. -/
theorem parse_cases {text : String} (h : text.length < 2147483648) :
    (∃ t : Derivation .regex, t.written = text.toList ∧ parse text = .ok t.value) ∨
      ∃ offset ≤ text.length, parse text = .error (.malformed text offset) := by
  have hlength : text.toList.length = text.length := String.length_toList
  rcases ends_rule .regex [] (hlength ▸ h) with hfail | ⟨t, rest, hinput, hmatch⟩
  · refine .inr ⟨0, Nat.zero_le _, ?_⟩
    rw [parse, hfail _ (Nat.le_refl _)]
  · cases rest with
    | nil =>
      refine .inl ⟨t, by rw [hinput, List.append_nil], ?_⟩
      rw [parse, hmatch _ (Nat.le_refl _)]
      rfl
    | cons c rest =>
      refine .inr ⟨text.toList.length - (c :: rest).length, by omega, ?_⟩
      rw [parse, hmatch _ (Nat.le_refl _)]
      rfl

/-- Every pattern is read to its end or found malformed. No rule gets stuck: one that matches has
read some of the input and pushed one item of its kind, with the rest of the stack as it was. -/
theorem parse_total {text : String} (h : text.length < 2147483648) :
    ((∃ p, parse text = .ok p) ∨
        ∃ offset ≤ text.length, parse text = .error (.malformed text offset)) ∧
      ∀ (n : Nonterminal) (stack : List Item) (input : List Char), input.length ≤ text.length →
        Peg.Ends rules (depth input) (.call n) stack input .failed ∨
          ∃ v rest, rest <:+ input ∧
            Peg.Ends rules (depth input) (.call n) stack input
              (.matched (n.item v :: stack) rest) := by
  refine ⟨?_, fun n stack input hinput => ?_⟩
  · rcases parse_cases h with ⟨t, -, hok⟩ | herror
    · exact .inl ⟨t.value, hok⟩
    · exact .inr herror
  · rcases ends_rule n stack (Nat.lt_of_le_of_lt hinput h) with hfail | ⟨t, rest, rfl, hmatch⟩
    · exact .inl hfail
    · exact .inr ⟨t.value, rest, List.suffix_append _ _, hmatch⟩

/-- A group and a class that are not closed, and the rule that reads the inside of the class. -/
theorem parse_total_unclosed : "(a|[b".length < 2147483648 ∧
    ((∃ p, parse "(a|[b" = .ok p) ∨
        ∃ offset ≤ "(a|[b".length, parse "(a|[b" = .error (.malformed "(a|[b" offset)) ∧
      (Peg.Ends rules (depth ['b']) (.call .set) [.shift 1] ['b'] .failed ∨
        ∃ v rest, rest <:+ ['b'] ∧
          Peg.Ends rules (depth ['b']) (.call .set) [.shift 1] ['b']
            (.matched [.charClass v, .shift 1] rest)) := by
  have hlength : "(a|[b".length < 2147483648 := by decide
  obtain ⟨houtcome, hrules⟩ := parse_total hlength
  exact ⟨hlength, houtcome, hrules .set [.shift 1] ['b'] (by decide)⟩

end Munch.Pattern
