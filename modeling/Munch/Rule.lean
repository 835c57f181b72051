-- SUMMARY: Lexical rules and what they match.
import Munch.Pattern.Eval
import Munch.Pattern.Grammar

/-!
# Rules

A rule matches a text or a pattern, and carries the code that is reported when
it matches.
-/

namespace Munch

inductive Rule (α : Type) where
  | literal (text : String) (code : α)
  | regex (pattern : String) (code : α)
deriving DecidableEq

namespace Rule

variable {α : Type}

def code : Rule α → α
  | literal _ code => code
  | regex _ code => code

def fragment : Rule α → Except PatternError (Fragment Char)
  | literal text _ => .ok (.literal text.toList)
  | regex pattern _ => Pattern.parse pattern >>= Pattern.toFragment

end Rule

end Munch
