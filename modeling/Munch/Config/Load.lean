-- SUMMARY: Settings from a file.
import Munch.Config
import Munch.Config.Wrapped
import Munch.Toml.Document

/-!
# Settings from a file

Settings that a file does not name keep their defaults, and what it names
besides is ignored. A setting of the wrong type or with an unknown value makes
the whole file invalid.
-/

namespace Munch

inductive ConfigError where
  /-- There is no such file. -/
  | missing
  /-- The file cannot be read as settings at all. -/
  | malformed
  /-- A setting has a value that it cannot have. -/
  | invalid (key : String)
deriving DecidableEq

namespace TieBreak

def name : TieBreak → String
  | highestCode => "highest_code"
  | firstDeclared => "first_declared"

def ofName? (s : String) : Option TieBreak := [highestCode, firstDeclared].find? (·.name = s)

end TieBreak

namespace Config

/-- The value of a setting, or its default if the file does not name it. -/
def setting {β : Type} (entries : Toml.Entries) (key : String) (default : β)
    (read? : Toml.Value → Option β) : Except ConfigError β :=
  match entries.lookup key with
  | none => .ok default
  | some v =>
    match read? v with
    | some value => .ok value
    | none => .error (.invalid key)

def ofEntries (entries : Toml.Entries) : Except ConfigError Config := do
  let minimize ← setting entries "minimize" Config.default.minimize fun
    | .boolean b => some b
    | _ => none
  let tieBreak ← setting entries "tie_break" Config.default.tieBreak fun
    | .text s => TieBreak.ofName? s
    | _ => none
  return { minimize, tieBreak }

/-- The settings in the text of a file; none if the file does not exist. -/
def load : Option String → Except ConfigError Config
  | none => .error .missing
  | some text =>
    match Toml.parse? text >>= Toml.unwrapEntries? with
    | none => .error .malformed
    | some entries => ofEntries entries

end Config

end Munch
