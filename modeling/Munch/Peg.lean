-- SUMMARY: Parsing expressions that build their results on a stack, and the machine that runs them.
import Munch.RangeSet.Basic

/-!
# Parsing expressions

A parsing expression reads characters from the front of the input and works on
a stack of results. Choice is ordered and commits to the first alternative that
matches, repetition is greedy and never gives a match back. An expression may
call the rules of a grammar by name, so rules can refer to each other.

Three things can happen besides a match. The expression may not match, which
a choice recovers from. A step on the stack may find it without the items it
needs, or a call its rule undefined, which nothing recovers from: the machine
is stuck. And the fuel may run out, which is a failure of the caller to give
enough.
-/

namespace Munch

/-- Parsing expressions over rules named by `ν`, with results in `ι`. -/
inductive Peg (ν ι : Type) where
  /-- One character of the set. -/
  | skip (set : RangeSet Char)
  /-- One character of the set, whose result is pushed. -/
  | take (set : RangeSet Char) (result : Char → ι)
  | seq (first second : Peg ν ι)
  | alt (first second : Peg ν ι)
  /-- The body, or nothing as well (`optional`), or the body many times (`repeating`), or both. -/
  | optRep (body : Peg ν ι) (optional repeating : Bool)
  /-- Takes the top item off the stack. -/
  | drop
  | push (item : ι)
  /-- The top `count` items, in the order in which they were pushed, become one. -/
  | reduce (count : Nat) (reducer : List ι → Option ι)
  | call (rule : ν)

namespace Peg

variable {ν ι : Type}

instance : Append (Peg ν ι) := ⟨seq⟩

instance : OrElse (Peg ν ι) := ⟨fun first second => alt first (second ())⟩

/-- The character alone. -/
def exact (c : Char) : Peg ν ι := skip (.only c)

def opt (body : Peg ν ι) : Peg ν ι := optRep body true false

def many (body : Peg ν ι) : Peg ν ι := optRep body true true

/-- At least once. -/
def many1 (body : Peg ν ι) : Peg ν ι := optRep body false true

/-- Items with marks between them; each item behind a mark is joined to what came before. -/
def separated (item : Peg ν ι) (mark : Char) (join : List ι → Option ι) : Peg ν ι :=
  item ++ many (exact mark ++ item ++ reduce 2 join)

inductive Outcome (ι : Type) where
  | matched (stack : List ι) (rest : List Char)
  | failed
  | stuck
  | exhausted

/-- Repeats `body` until it fails or reads nothing. The fuel bounds the number of rounds. -/
def rounds (body : List ι → List Char → Outcome ι) : Nat → List ι → List Char → Outcome ι
  | 0, _, _ => .exhausted
  | fuel + 1, stack, input =>
    match body stack input with
    | .failed => .matched stack input
    | .matched stack' rest =>
      -- A round that reads nothing would go on forever.
      if rest.length = input.length then .matched stack input else rounds body fuel stack' rest
    | outcome => outcome

/-- Runs an expression on a stack and an input. The fuel bounds the depth of the run. -/
def run (rules : ν → Option (Peg ν ι)) : Nat → Peg ν ι → List ι → List Char → Outcome ι
  | 0, _, _, _ => .exhausted
  | fuel + 1, e, stack, input =>
    match e with
    | skip set =>
      match input with
      | [] => .failed
      | c :: rest => if c ∈ set then .matched stack rest else .failed
    | take set result =>
      match input with
      | [] => .failed
      | c :: rest => if c ∈ set then .matched (result c :: stack) rest else .failed
    | seq first second =>
      match run rules fuel first stack input with
      | .matched stack rest => run rules fuel second stack rest
      | outcome => outcome
    | alt first second =>
      match run rules fuel first stack input with
      | .failed => run rules fuel second stack input
      | outcome => outcome
    | optRep body optional repeating =>
      match run rules fuel body stack input with
      | .failed => if optional then .matched stack input else .failed
      | .matched stack rest =>
        if repeating then rounds (run rules fuel body) fuel stack rest else .matched stack rest
      | outcome => outcome
    | drop =>
      match stack with
      | [] => .stuck
      | _ :: stack => .matched stack input
    | push item => .matched (item :: stack) input
    | reduce count reducer =>
      if stack.length < count then .stuck
      else
        match reducer (stack.take count).reverse with
        | some item => .matched (item :: stack.drop count) input
        | none => .stuck
    | call rule =>
      match rules rule with
      | some body => run rules fuel body stack input
      | none => .stuck

end Peg

end Munch
