-- SUMMARY: What can be wrong with a pattern, and how it is said.

/-!
# Errors in patterns
-/

namespace Munch

inductive PatternError where
  /-- The pattern can be read up to `offset` only, counted in characters. -/
  | malformed (pattern : String) (offset : Nat)
  /-- A hexadecimal escape holds a character that is no digit. -/
  | hexDigit (digit : Char)
  /-- An escape or a shift leads to a number that is no character. -/
  | codePoint (value : Int)
  /-- The grammar asked the parsing machine for something impossible. -/
  | stuck
deriving DecidableEq

def PatternError.message : PatternError → String
  | malformed pattern offset => s!"syntax error in regexp `{pattern}` at offset {offset}"
  | hexDigit digit => s!"invalid hex digit `{digit}` in escape sequence"
  | codePoint value => s!"invalid code point: {value}"
  | stuck => "parsing machine stuck"

end Munch
