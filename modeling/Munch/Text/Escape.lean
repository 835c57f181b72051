-- SUMMARY: Escaped forms of characters and strings, as they appear in displays and messages.
import Munch.Text.Printable

/-!
# Escaped text

Zero, tabulator, carriage return, newline and the backslash are escaped by
name, other characters that are not printable by code point. Which quotation
marks are escaped depends on the marks around the text.
-/

namespace Munch.Text

/-- Lower case hexadecimal digits, without leading zeros. -/
def hexDigits (n : Nat) : String := String.ofList (Nat.toDigits 16 n)

/-- The quotation marks that a text escapes. -/
structure Quotes where
  single : Bool
  double : Bool

/-- Text that stands without marks of its own. -/
def Quotes.both : Quotes := ⟨true, true⟩

/-- A single character between single quotation marks. -/
def Quotes.char : Quotes := ⟨true, false⟩

/-- A string between double quotation marks. -/
def Quotes.string : Quotes := ⟨false, true⟩

def escapeChar (quotes : Quotes) (c : Char) : String :=
  match c with
  | '\x00' => "\\0"
  | '\t' => "\\t"
  | '\r' => "\\r"
  | '\n' => "\\n"
  | '\\' => "\\\\"
  | '\'' => if quotes.single then "\\'" else "'"
  | '"' => if quotes.double then "\\\"" else "\""
  | c =>
    if isPrintable c then String.singleton c
    else "\\u\x7b" ++ hexDigits c.toNat ++ "\x7d"

/-- A character as a literal. -/
def quoteChar (c : Char) : String := "'" ++ escapeChar .char c ++ "'"

/-- A string as a literal. -/
def quoteString (s : String) : String :=
  "\"" ++ String.join (s.toList.map (escapeChar .string)) ++ "\""

/-- Values that messages can name. -/
class Quoted (κ : Type) where
  quote : κ → String

instance : Quoted String := ⟨quoteString⟩

end Munch.Text
