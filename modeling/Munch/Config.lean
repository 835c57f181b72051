-- SUMMARY: Settings of the compiler.

/-!
# Settings
-/

namespace Munch

/-- Which rule wins when several match the same longest beginning. -/
inductive TieBreak where
  /-- The rule with the greatest accept code. -/
  | highestCode
  /-- The rule that was declared first. -/
  | firstDeclared
deriving DecidableEq

structure Config where
  /-- Whether automata are minimized. -/
  minimize : Bool := true
  tieBreak : TieBreak := .highestCode
deriving DecidableEq

def Config.default : Config := {}

instance : Inhabited Config := ⟨.default⟩

end Munch
