-- SUMMARY: Laws of the parsing machine: how runs are put together, and when a run cannot get stuck.
import Munch.Peg
import Munch.RangeSet.Lemmas

/-! # Laws of the parsing machine

A run is said to end in some outcome within a depth if every run with at least
that much fuel does. There is one law for each way an expression can end, with
one more for the depth. An expression is safe if its run ends in a failure or
in a match that satisfies a postcondition, so that it is neither stuck nor out
of fuel; there is one law for each expression. -/

namespace Munch.Peg

variable {ν ι : Type} {rules : ν → Option (Peg ν ι)} {d d' : Nat} {e first second body : Peg ν ι}
  {stack stack' : List ι} {input rest : List Char} {o : Outcome ι}

/-! ## Steps -/

section Steps

variable {fuel : Nat} {set : RangeSet Char} {c : Char} {result : Char → ι}

theorem run_skip : run rules (fuel + 1) (skip set) stack (c :: rest) =
    if c ∈ set then .matched stack rest else .failed :=
  rfl

theorem run_take : run rules (fuel + 1) (take set result) stack (c :: rest) =
    if c ∈ set then .matched (result c :: stack) rest else .failed :=
  rfl

theorem run_seq : run rules (fuel + 1) (first ++ second) stack input =
    match run rules fuel first stack input with
    | .matched stack rest => run rules fuel second stack rest
    | outcome => outcome :=
  rfl

theorem run_alt : run rules (fuel + 1) (first <|> second) stack input =
    match run rules fuel first stack input with
    | .failed => run rules fuel second stack input
    | outcome => outcome :=
  rfl

theorem run_optRep {optional repeating : Bool} :
    run rules (fuel + 1) (optRep body optional repeating) stack input =
      match run rules fuel body stack input with
      | .failed => if optional then .matched stack input else .failed
      | .matched stack rest =>
        if repeating then rounds (run rules fuel body) fuel stack rest else .matched stack rest
      | outcome => outcome :=
  rfl

theorem run_reduce {count : Nat} {reducer : List ι → Option ι} :
    run rules (fuel + 1) (reduce count reducer) stack input =
      if stack.length < count then .stuck
      else
        match reducer (stack.take count).reverse with
        | some item => .matched (item :: stack.drop count) input
        | none => .stuck :=
  rfl

theorem run_call {rule : ν} : run rules (fuel + 1) (call rule) stack input =
    match rules rule with
    | some body => run rules fuel body stack input
    | none => .stuck :=
  rfl

theorem rounds_succ {body : List ι → List Char → Outcome ι} {count : Nat} :
    rounds body (count + 1) stack input =
      match body stack input with
      | .failed => .matched stack input
      | .matched stack' rest =>
        if rest.length = input.length then .matched stack input else rounds body count stack' rest
      | outcome => outcome :=
  rfl

end Steps

/-! ## Runs -/

/-- With fuel of at least `d` the run ends in the outcome. -/
def Ends (rules : ν → Option (Peg ν ι)) (d : Nat) (e : Peg ν ι) (stack : List ι) (input : List Char)
    (o : Outcome ι) : Prop :=
  ∀ fuel, d ≤ fuel → run rules fuel e stack input = o

theorem Ends.mono (h : Ends rules d e stack input o) (hd : d ≤ d') :
    Ends rules d' e stack input o :=
  fun fuel hfuel => h fuel (Nat.le_trans hd hfuel)

/-- It is enough to take one step of the machine. -/
theorem ends_succ (h : ∀ fuel, d ≤ fuel → run rules (fuel + 1) e stack input = o) :
    Ends rules (d + 1) e stack input o := by
  intro fuel hfuel
  obtain ⟨fuel, rfl⟩ : ∃ n, fuel = n + 1 := ⟨fuel - 1, by omega⟩
  exact h fuel (by omega)

/-! ### Characters -/

section Characters

variable {set : RangeSet Char} {c : Char} {result : Char → ι}

theorem ends_skip (hc : c ∈ set) :
    Ends rules (d + 1) (skip set) stack (c :: rest) (.matched stack rest) :=
  ends_succ fun _ _ => by rw [run_skip, if_pos hc]

theorem ends_skip_fail (hc : ∀ c ∈ input.head?, ¬ c ∈ set) :
    Ends rules (d + 1) (skip set) stack input .failed := by
  refine ends_succ fun fuel _ => ?_
  cases input with
  | nil => rfl
  | cons c rest => rw [run_skip, if_neg (hc c rfl)]

theorem ends_take (hc : c ∈ set) :
    Ends rules (d + 1) (take set result) stack (c :: rest) (.matched (result c :: stack) rest) :=
  ends_succ fun _ _ => by rw [run_take, if_pos hc]

theorem ends_take_fail (hc : ∀ c ∈ input.head?, ¬ c ∈ set) :
    Ends rules (d + 1) (take set result) stack input .failed := by
  refine ends_succ fun fuel _ => ?_
  cases input with
  | nil => rfl
  | cons c rest => rw [run_take, if_neg (hc c rfl)]

theorem ends_exact : Ends rules (d + 1) (exact c) stack (c :: rest) (.matched stack rest) :=
  ends_skip (RangeSet.mem_only.2 rfl)

theorem ends_exact_fail (hc : ∀ c' ∈ input.head?, c' ≠ c) :
    Ends rules (d + 1) (exact c) stack input .failed :=
  ends_skip_fail fun c' hc' hmem => hc c' hc' (RangeSet.mem_only.1 hmem)

theorem ends_exact_ne {c' : Char} (hc : c' ≠ c) :
    Ends rules (d + 1) (exact c) stack (c' :: rest) .failed := by
  refine ends_exact_fail ?_
  rintro _ ⟨⟩
  exact hc

end Characters

/-! ### Composition -/

theorem ends_seq (h : Ends rules d first stack input (.matched stack' rest))
    (h' : Ends rules d second stack' rest o) :
    Ends rules (d + 1) (first ++ second) stack input o := by
  refine ends_succ fun fuel hfuel => ?_
  rw [run_seq, h fuel hfuel]
  exact h' fuel hfuel

theorem ends_seq_fail (h : Ends rules d first stack input .failed) :
    Ends rules (d + 1) (first ++ second) stack input .failed := by
  refine ends_succ fun fuel hfuel => ?_
  rw [run_seq, h fuel hfuel]

theorem ends_alt_left (h : Ends rules d first stack input (.matched stack' rest)) :
    Ends rules (d + 1) (first <|> second) stack input (.matched stack' rest) := by
  refine ends_succ fun fuel hfuel => ?_
  rw [run_alt, h fuel hfuel]

theorem ends_alt_right (h : Ends rules d first stack input .failed)
    (h' : Ends rules d second stack input o) :
    Ends rules (d + 1) (first <|> second) stack input o := by
  refine ends_succ fun fuel hfuel => ?_
  rw [run_alt, h fuel hfuel]
  exact h' fuel hfuel

theorem ends_call {rule : ν} (hrule : rules rule = some body)
    (h : Ends rules d body stack input o) : Ends rules (d + 1) (call rule) stack input o :=
  ends_succ fun fuel hfuel => by rw [run_call, hrule]; exact h fuel hfuel

/-! ### The stack -/

theorem ends_push {item : ι} :
    Ends rules (d + 1) (push item) stack input (.matched (item :: stack) input) :=
  ends_succ fun _ _ => rfl

theorem ends_drop {item : ι} :
    Ends rules (d + 1) drop (item :: stack) input (.matched stack input) :=
  ends_succ fun _ _ => rfl

/-- The items come off the stack in the order in which they were pushed. -/
theorem ends_reduce (items : List ι) {item : ι} {reducer : List ι → Option ι}
    (h : reducer items = some item) :
    Ends rules (d + 1) (reduce items.length reducer) (items.reverse ++ stack) input
      (.matched (item :: stack) input) := by
  refine ends_succ fun fuel _ => ?_
  have hlength : ¬ (items.reverse ++ stack).length < items.length := by simp
  have htake : ((items.reverse ++ stack).take items.length).reverse = items := by simp
  have hdrop : (items.reverse ++ stack).drop items.length = stack := by simp
  rw [run_reduce, if_neg hlength, htake, h, hdrop]

/-! ### Repetition -/

/-- Some turns of the body, each of which reads something, until the body fails. -/
inductive Turns (rules : ν → Option (Peg ν ι)) (d : Nat) (body : Peg ν ι) :
    List ι → List Char → List ι → List Char → Prop where
  | stop {stack : List ι} {input : List Char} :
      Ends rules d body stack input .failed → Turns rules d body stack input stack input
  | turn {stack stack' last : List ι} {input rest remaining : List Char} :
      Ends rules d body stack input (.matched stack' rest) → rest.length < input.length →
      Turns rules d body stack' rest last remaining → Turns rules d body stack input last remaining

theorem Turns.mono (h : Turns rules d body stack input stack' rest) (hd : d ≤ d') :
    Turns rules d' body stack input stack' rest := by
  induction h with
  | stop h => exact .stop (h.mono hd)
  | turn h hlt _ ih => exact .turn (h.mono hd) hlt ih

/-- The rounds of the machine are the turns, if there is fuel for one with every character. -/
theorem Turns.rounds_eq (h : Turns rules d body stack input stack' rest) {fuel count : Nat}
    (hfuel : d ≤ fuel) (hcount : input.length < count) :
    rounds (run rules fuel body) count stack input = .matched stack' rest := by
  induction h generalizing count with
  | stop h =>
    obtain ⟨count, rfl⟩ : ∃ n, count = n + 1 := ⟨count - 1, by omega⟩
    rw [rounds_succ, h fuel hfuel]
  | turn h hlt _ ih =>
    obtain ⟨count, rfl⟩ : ∃ n, count = n + 1 := ⟨count - 1, by omega⟩
    rw [rounds_succ, h fuel hfuel]
    show (if _ then _ else _) = _
    rw [if_neg (by omega)]
    exact ih (by omega)

/-- A repetition whose body matches at least once. -/
theorem ends_turns {optional : Bool} {last : List ι} {remaining : List Char}
    (h : Ends rules d body stack input (.matched stack' rest))
    (hturns : Turns rules d body stack' rest last remaining) (hd : rest.length < d) :
    Ends rules (d + 1) (optRep body optional true) stack input (.matched last remaining) := by
  refine ends_succ fun fuel hfuel => ?_
  rw [run_optRep, h fuel hfuel]
  exact hturns.rounds_eq hfuel (by omega)

theorem ends_many (h : Turns rules d body stack input stack' rest) (hd : input.length < d) :
    Ends rules (d + 1) (many body) stack input (.matched stack' rest) := by
  cases h with
  | stop h => exact ends_succ fun fuel hfuel => by rw [many, run_optRep, h fuel hfuel]; rfl
  | turn h hlt hturns => exact ends_turns h hturns (by omega)

theorem ends_opt (h : Ends rules d body stack input (.matched stack' rest)) :
    Ends rules (d + 1) (opt body) stack input (.matched stack' rest) :=
  ends_succ fun fuel hfuel => by rw [opt, run_optRep, h fuel hfuel]; rfl

theorem ends_opt_fail (h : Ends rules d body stack input .failed) :
    Ends rules (d + 1) (opt body) stack input (.matched stack input) :=
  ends_succ fun fuel hfuel => by rw [opt, run_optRep, h fuel hfuel]; rfl

theorem ends_many1 (h : Turns rules d body stack input stack' rest)
    (hlt : rest.length < input.length) (hd : input.length < d) :
    Ends rules (d + 1) (many1 body) stack input (.matched stack' rest) := by
  cases h with
  | stop _ => exact absurd hlt (Nat.lt_irrefl _)
  | turn h hlt hturns => exact ends_turns h hturns (by omega)

theorem ends_many1_fail (h : Ends rules d body stack input .failed) :
    Ends rules (d + 1) (many1 body) stack input .failed :=
  ends_succ fun fuel hfuel => by rw [many1, run_optRep, h fuel hfuel]; rfl

/-! ## Safety -/

/-- The run ends within the depth, in a failure or in a match with the postcondition. -/
def Safe (rules : ν → Option (Peg ν ι)) (d : Nat) (e : Peg ν ι) (stack : List ι) (input : List Char)
    (post : List ι → List Char → Prop) : Prop :=
  Ends rules d e stack input .failed ∨
    ∃ stack' rest, Ends rules d e stack input (.matched stack' rest) ∧ post stack' rest

namespace Safe

variable {post : List ι → List Char → Prop}

theorem mono {post' : List ι → List Char → Prop} (h : Safe rules d e stack input post)
    (hd : d ≤ d') (hpost : ∀ stack' rest, post stack' rest → post' stack' rest) :
    Safe rules d' e stack input post' := by
  rcases h with h | ⟨stack', rest, h, hp⟩
  · exact .inl (h.mono hd)
  · exact .inr ⟨stack', rest, h.mono hd, hpost _ _ hp⟩

theorem imp {post' : List ι → List Char → Prop} (h : Safe rules d e stack input post)
    (hpost : ∀ stack' rest, post stack' rest → post' stack' rest) :
    Safe rules d e stack input post' :=
  h.mono (Nat.le_refl d) hpost

theorem skip {set : RangeSet Char} (h : ∀ c ∈ set, ∀ rest, input = c :: rest → post stack rest) :
    Safe rules (d + 1) (skip set) stack input post := by
  cases input with
  | nil => exact .inl (ends_skip_fail nofun)
  | cons c rest =>
    by_cases hc : c ∈ set
    · exact .inr ⟨stack, rest, ends_skip hc, h c hc rest rfl⟩
    · exact .inl (ends_skip_fail fun _ hc' => Option.some.inj hc' ▸ hc)

theorem exact {c : Char} (h : ∀ rest, input = c :: rest → post stack rest) :
    Safe rules (d + 1) (exact c) stack input post :=
  skip fun _ hc rest hinput => h rest (RangeSet.mem_only.1 hc ▸ hinput)

theorem take {set : RangeSet Char} {result : Char → ι}
    (h : ∀ c ∈ set, ∀ rest, input = c :: rest → post (result c :: stack) rest) :
    Safe rules (d + 1) (take set result) stack input post := by
  cases input with
  | nil => exact .inl (ends_take_fail nofun)
  | cons c rest =>
    by_cases hc : c ∈ set
    · exact .inr ⟨_, rest, ends_take hc, h c hc rest rfl⟩
    · exact .inl (ends_take_fail fun _ hc' => Option.some.inj hc' ▸ hc)

theorem seq (h : Safe rules d first stack input fun stack' rest =>
      Safe rules d second stack' rest post) :
    Safe rules (d + 1) (first ++ second) stack input post := by
  rcases h with h | ⟨stack', rest, h, h' | ⟨last, remaining, h', hpost⟩⟩
  · exact .inl (ends_seq_fail h)
  · exact .inl (ends_seq h h')
  · exact .inr ⟨last, remaining, ends_seq h h', hpost⟩

theorem alt (h : Safe rules d first stack input post) (h' : Safe rules d second stack input post) :
    Safe rules (d + 1) (first <|> second) stack input post := by
  rcases h with h | ⟨stack', rest, h, hpost⟩
  · rcases h' with h' | ⟨stack', rest, h', hpost⟩
    · exact .inl (ends_alt_right h h')
    · exact .inr ⟨stack', rest, ends_alt_right h h', hpost⟩
  · exact .inr ⟨stack', rest, ends_alt_left h, hpost⟩

theorem call {rule : ν} (hrule : rules rule = some body) (h : Safe rules d body stack input post) :
    Safe rules (d + 1) (call rule) stack input post := by
  rcases h with h | ⟨stack', rest, h, hpost⟩
  · exact .inl (ends_call hrule h)
  · exact .inr ⟨stack', rest, ends_call hrule h, hpost⟩

theorem push {item : ι} (h : post (item :: stack) input) :
    Safe rules (d + 1) (push item) stack input post :=
  .inr ⟨_, input, ends_push, h⟩

theorem drop {item : ι} (h : post stack input) :
    Safe rules (d + 1) drop (item :: stack) input post :=
  .inr ⟨stack, input, ends_drop, h⟩

theorem reduce (items : List ι) {item : ι} {reducer : List ι → Option ι}
    (h : reducer items = some item) (hpost : post (item :: stack) input) :
    Safe rules (d + 1) (reduce items.length reducer) (items.reverse ++ stack) input post :=
  .inr ⟨_, input, ends_reduce items h, hpost⟩

theorem opt (h : Safe rules d body stack input post) (hpost : post stack input) :
    Safe rules (d + 1) (opt body) stack input post := by
  rcases h with h | ⟨stack', rest, h, hpost'⟩
  · exact .inr ⟨stack, input, ends_opt_fail h, hpost⟩
  · exact .inr ⟨stack', rest, ends_opt h, hpost'⟩

/-! ### Repetition -/

/-- A turn of the body keeps the invariant and reads something. -/
def Turn (rules : ν → Option (Peg ν ι)) (d : Nat) (body : Peg ν ι)
    (inv : List ι → List Char → Prop) : Prop :=
  ∀ stack input, inv stack input → Safe rules d body stack input fun stack' rest =>
    inv stack' rest ∧ rest.length < input.length

variable {inv : List ι → List Char → Prop}

/-- The turns end with the invariant, since the input gets shorter. -/
theorem Turn.turns (h : Turn rules d body inv) (hinv : inv stack input) :
    ∃ stack' rest, Turns rules d body stack input stack' rest ∧ inv stack' rest := by
  induction hn : input.length using Nat.strongRecOn generalizing stack input with
  | ind n ih =>
    rcases h stack input hinv with hfail | ⟨stack', rest, hmatch, hinv', hlt⟩
    · exact ⟨stack, input, .stop hfail, hinv⟩
    · obtain ⟨last, remaining, hturns, hlast⟩ := ih rest.length (hn ▸ hlt) hinv' rfl
      exact ⟨last, remaining, .turn hmatch hlt hturns, hlast⟩

theorem many (h : Turn rules d body inv) (hinv : inv stack input) (hd : input.length < d) :
    Safe rules (d + 1) (many body) stack input inv := by
  obtain ⟨stack', rest, hturns, hlast⟩ := h.turns hinv
  exact .inr ⟨stack', rest, ends_many hturns hd, hlast⟩

/-- At least one turn, after which the invariant holds. -/
theorem many1 (hfirst : Safe rules d body stack input fun stack' rest =>
      inv stack' rest ∧ rest.length < input.length)
    (h : Turn rules d body inv) (hd : input.length < d) :
    Safe rules (d + 1) (many1 body) stack input inv := by
  rcases hfirst with hfail | ⟨stack', rest, hmatch, hinv, hlt⟩
  · exact .inl (ends_many1_fail hfail)
  · obtain ⟨last, remaining, hturns, hlast⟩ := h.turns hinv
    exact .inr ⟨last, remaining, ends_turns hmatch hturns (by omega), hlast⟩

end Safe

end Munch.Peg
