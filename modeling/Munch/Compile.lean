-- SUMMARY: From rules to deterministic automata.
import Munch.Config
import Munch.Dfa.Minimize
import Munch.Dfa.Subset
import Munch.Nfa.Thompson
import Munch.Rule

/-!
# Compilation

The rules become fragments, then one automaton, then a deterministic one, which
is minimized if the settings say so. A state carries the greatest of the labels
of the rules that end there. With the policy `highestCode` the label is the
code itself; with `firstDeclared` it is led by the rule's place, earlier places
being greater.
-/

namespace Munch

inductive CompileError where
  | pattern (e : PatternError)
  | fault (f : Fault Char)

def CompileError.message? : CompileError → Option String
  | pattern .stuck => none
  | pattern e => some e.message
  | fault f => f.message?

/-- A code behind the place of its rule. Of two labels the one with the smaller place is greater. -/
structure Label (α : Type) where
  place : Nat
  code : α
deriving DecidableEq

instance {α : Type} [Ord α] : Ord (Label α) :=
  ⟨fun a b => (compare b.place a.place).then (compare a.code b.code)⟩

variable {α : Type}

/-- The deterministic automaton of labelled fragments. -/
def determinizeRules [Ord α] (rules : List (Fragment Char × α)) :
    Except (Fault Char) (Dfa Char α) :=
  Subsets.dfa <$> (Nfa.ofRules rules).determinize

/-- The automaton of fragments with their codes, before minimization. -/
def determinizeBy [Ord α] (policy : TieBreak) (rules : List (Fragment Char × α)) :
    Except (Fault Char) (Dfa Char α) :=
  match policy with
  | .highestCode => determinizeRules rules
  | .firstDeclared =>
    Dfa.mapCodes Label.code <$>
      determinizeRules (rules.zipIdx.map fun ((fragment, code), place) => (fragment, ⟨place, code⟩))

/-- The fragments of rules with their codes; the first rule that has none gives the error. -/
def labelledFragments (rules : List (Rule α)) :
    Except PatternError (List (Fragment Char × α)) :=
  rules.mapM fun rule => do return (← rule.fragment, rule.code)

/-- The automaton that finds the longest match of the rules. -/
def compile [Ord α] [DecidableEq α] (config : Config) (rules : List (Rule α)) :
    Except CompileError (Dfa Char α) := do
  let fragments ← (labelledFragments rules).mapError .pattern
  let dfa ← (determinizeBy config.tieBreak fragments).mapError .fault
  if config.minimize then dfa.minimize?.mapError .fault else return dfa

end Munch
