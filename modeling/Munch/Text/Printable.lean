-- SUMMARY: Which characters are shown as they are, and which by their code point.

/-!
# Printable characters

Controls, format characters, separators other than the space, private use
characters and noncharacters are not printable, nor are the larger areas that
have no assigned characters.
-/

namespace Munch.Text

/-- Ranges of code points that are not printable, in ascending order. -/
def unprintableRanges : List (Nat × Nat) :=
  [ (0x0, 0x1F), (0x7F, 0xA0), (0xAD, 0xAD), (0x600, 0x605), (0x61C, 0x61C), (0x6DD, 0x6DD),
    (0x70F, 0x70F), (0x890, 0x891), (0x8E2, 0x8E2), (0x1680, 0x1680), (0x180E, 0x180E),
    (0x2000, 0x200F), (0x2028, 0x202F), (0x205F, 0x206F), (0x3000, 0x3000), (0xD7FC, 0xF8FF),
    (0xFDD0, 0xFDEF), (0xFEFF, 0xFEFF), (0xFFF9, 0xFFFB), (0xFFFE, 0xFFFF), (0x110BD, 0x110BD),
    (0x110CD, 0x110CD), (0x13430, 0x13438), (0x14647, 0x167FF), (0x1BCA0, 0x1BCA3),
    (0x1D173, 0x1D17A), (0x1FBFA, 0x1FFFF), (0x2FA1E, 0x2FFFF), (0x323B0, 0xE00FF),
    (0xE01F0, 0x10FFFF) ]

def isPrintable (c : Char) : Bool :=
  !unprintableRanges.any fun (first, last) => first ≤ c.toNat && c.toNat ≤ last

end Munch.Text
