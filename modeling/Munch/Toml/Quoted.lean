-- SUMMARY: Strings in settings files and how they are written.
import Munch.Toml.Basic

/-!
# Strings of settings files

Strings stand in double quotation marks, where a backslash escapes, or in single
ones, where every character stands for itself. Three marks open a string that
may run over several lines.
-/

namespace Munch.Toml

/-! ## Escapes -/

def hexDigit? (c : Char) : Option Nat :=
  if c.isDigit then some (c.toNat - '0'.toNat)
  else if 'a' ≤ c && c ≤ 'f' then some (c.toNat - 'a'.toNat + 10)
  else if 'A' ≤ c && c ≤ 'F' then some (c.toNat - 'A'.toNat + 10)
  else none

/-- The character whose code point is written with exactly `width` hexadecimal digits. -/
def codePoint? (width : Nat) (input : List Char) : Option (Char × List Char) := do
  let digits ← (input.take width).mapM hexDigit?
  if digits.length < width then none
  let value := digits.foldl (fun n d => 16 * n + d) 0
  if h : value.isValidChar then some (Char.ofNatAux value h, input.drop width) else none

/-- The character after a backslash. -/
def escaped? : Reader Char
  | 'b' :: rest => some ('\x08', rest)
  | 't' :: rest => some ('\t', rest)
  | 'n' :: rest => some ('\n', rest)
  | 'f' :: rest => some ('\x0C', rest)
  | 'r' :: rest => some ('\r', rest)
  | '"' :: rest => some ('"', rest)
  | '\\' :: rest => some ('\\', rest)
  | 'u' :: rest => codePoint? 4 rest
  | 'U' :: rest => codePoint? 8 rest
  | _ => none

/-! ## Strings on one line -/

/-- A string up to the next double quotation mark. The fuel bounds the number of characters. -/
def basic? : Nat → Reader (List Char)
  | 0, _ => none
  | fuel + 1, input =>
    match input with
    | [] => none
    | '"' :: rest => some ([], rest)
    | '\\' :: rest => do
      let (c, rest) ← escaped? rest
      let (cs, rest) ← basic? fuel rest
      return (c :: cs, rest)
    | c :: rest => do
      if isControl c then none
      let (cs, rest) ← basic? fuel rest
      return (c :: cs, rest)

/-- A string up to the next single quotation mark. -/
def literal? : Reader (List Char)
  | [] => none
  | '\'' :: rest => some ([], rest)
  | c :: rest => do
    if isControl c then none
    let (cs, rest) ← literal? rest
    return (c :: cs, rest)

/-- A string in either kind of quotation marks. -/
def quoted? : Reader String
  | '"' :: rest => do
    let (cs, rest) ← basic? (rest.length + 1) rest
    return (String.ofList cs, rest)
  | '\'' :: rest => do
    let (cs, rest) ← literal? rest
    return (String.ofList cs, rest)
  | _ => none

/-! ## Strings on several lines -/

/-- Skips blanks and lines that end. -/
def skipLines : List Char → List Char
  | [] => []
  | '\n' :: rest => skipLines rest
  | '\r' :: '\n' :: rest => skipLines rest
  | c :: rest => if isBlank c then skipLines rest else c :: rest

/-- What a string continues with if a backslash ends the line: all space up to the next character
is left out. -/
def joined? (input : List Char) : Option (List Char) :=
  skipLines <$> afterLine? (skipBlanks input)

/-- A string up to the next three marks; up to two more belong to it. Lines end in a line feed
alone. The fuel bounds the number of characters. -/
def block? (mark : Char) : Nat → Reader (List Char)
  | 0, _ => none
  | fuel + 1, input => do
    let also (cs : List Char) (rest : List Char) : Option (List Char × List Char) := do
      let (more, rest) ← block? mark fuel rest
      return (cs ++ more, rest)
    let marks := (input.takeWhile (· = mark)).length
    if 3 ≤ marks then
      let inside := min (marks - 3) 2
      return (List.replicate inside mark, input.drop (inside + 3))
    match input with
    | [] => none
    | c :: rest =>
      if mark = '"' && c = '\\' then
        match joined? rest with
        | some rest => also [] rest
        | none => do
          let (c, rest) ← escaped? rest
          also [c] rest
      else
        match afterLine? input with
        | some rest => also ['\n'] rest
        | none => if isControl c then none else also [c] rest

/-- A string of one line or several. The end of the line that three marks stand on is not part of
the string that they open. -/
def string? (input : List Char) : Option (String × List Char) :=
  let block (mark : Char) (rest : List Char) : Option (String × List Char) := do
    let (cs, rest) ← block? mark (rest.length + 1) ((afterLine? rest).getD rest)
    return (String.ofList cs, rest)
  match input with
  | '"' :: '"' :: '"' :: rest => block '"' rest
  | '\'' :: '\'' :: '\'' :: rest => block '\'' rest
  | _ => quoted? input

end Munch.Toml
