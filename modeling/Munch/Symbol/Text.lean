-- SUMMARY: How symbols are written in displays of sets and in messages.
import Munch.Symbol
import Munch.Text.Escape

/-!
# Text of symbols

A symbol has two forms: the plain one stands in the display of a set, the
literal one in messages.
-/

namespace Munch

class SymbolText (σ : Type) where
  plain : σ → String
  literal : σ → String

instance : SymbolText Char := ⟨Text.escapeChar .both, Text.quoteChar⟩

/-- Two hexadecimal digits in displays, decimal in messages. -/
instance : SymbolText UInt8 where
  plain b := (if b < 16 then "0x0" else "0x") ++ Text.hexDigits b.toNat
  literal b := toString b.toNat

end Munch
