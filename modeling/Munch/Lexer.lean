-- SUMMARY: Splitting text into tokens, with one automaton or with one for each mode.
import Munch.ByName
import Munch.Compile

/-!
# Lexers

A token is the longest match at its place. Where no rule matches, a single
character becomes a token without a code, so every text can be split. A lexer
has an automaton for each of its modes; the code of a token decides which mode
comes next.
-/

namespace Munch

structure Token (α : Type) where
  text : String
  /-- The code of the rule that matched; none if no rule did. -/
  code : Option α
  /-- The place in the input, counted in characters, and the place behind the token. -/
  start : Nat
  stop : Nat
deriving DecidableEq

variable {α : Type}

/-! ## One automaton -/

/-- What the token that begins with `c` takes of the rest, and its code. -/
def Dfa.lead (d : Dfa Char α) (c : Char) (rest : List Char) :
    Except (Fault Char) (Nat × Option α) := do
  match ← d.longestMatch (c :: rest) with
  | some (length, code) => return (length - 1, some code)
  | none => return (0, none)

/-- The token of `c` and the next `more` characters, at `pos`. -/
def Token.at (pos : Nat) (c : Char) (rest : List Char) (more : Nat) (code : Option α) : Token α :=
  ⟨String.ofList (c :: rest.take more), code, pos, pos + more + 1⟩

/-- The tokens of the input that begins at `pos`. -/
def Dfa.tokensFrom (d : Dfa Char α) (pos : Nat) :
    List Char → Except (Fault Char) (List (Token α))
  | [] => .ok []
  | c :: rest => do
    let (more, code) ← d.lead c rest
    let tokens ← d.tokensFrom (pos + more + 1) (rest.drop more)
    return .at pos c rest more code :: tokens
termination_by input => input.length
decreasing_by simp only [List.length_drop, List.length_cons]; omega

/-- The tokens of a text from a place on. -/
def Dfa.tokens (d : Dfa Char α) (text : String) (start : Nat) :
    Except (Fault Char) (List (Token α)) :=
  d.tokensFrom start (text.toList.drop start)

/-! ## Modes -/

/-- A lexer has an automaton for each of its modes. -/
structure Lexer (α : Type) (κ : Type := String) [Ord κ] where
  modes : ByName (Dfa Char α) κ
deriving DecidableEq

inductive LexError (κ : Type := String) where
  /-- Text was left in a mode that the lexer does not have. -/
  | unknownMode (name : κ)
  | fault (f : Fault Char)

def LexError.message? {κ : Type} [Text.Quoted κ] : LexError κ → Option String
  | unknownMode name => some ("unknown lexer state: " ++ Text.Quoted.quote name)
  | fault f => f.message?

namespace Lexer

variable {κ : Type} [Ord κ]

instance : Inhabited (Lexer α κ) := ⟨⟨.empty⟩⟩

def names (l : Lexer α κ) : List κ := l.modes.names

def dfa? (l : Lexer α κ) (name : κ) : Option (Dfa Char α) := l.modes.get? name

/-- Whether the automata of all modes are well formed. -/
def WellFormed (l : Lexer α κ) : Prop := ∀ m ∈ l.modes.entries, m.2.WellFormed

instance (l : Lexer α κ) : Decidable l.WellFormed := by unfold WellFormed; infer_instance

/-- The lexer of the rules of each mode. The modes are compiled in ascending order of their names. -/
def compile [Std.TransOrd κ] [Ord α] [DecidableEq α] (config : Config)
    (rules : ByName (List (Rule α)) κ) : Except CompileError (Lexer α κ) := do
  let dfas ← rules.entries.mapM fun m => do return (m.1, ← Munch.compile config m.2)
  return ⟨.ofList dfas⟩

/-! ## Tokens -/

/-- The mode after a token and the state of `next`, which is asked only about tokens with a code. -/
def advance {τ : Type} (next : α → StateM τ κ) (mode : κ) (memory : τ) : Option α → κ × τ
  | some code => (next code).run memory
  | none => (mode, memory)

/-- The tokens of the input that begins at `pos` in the given mode, the mode that comes after them,
and the last state of `next`. -/
def lexFrom {τ : Type} (l : Lexer α κ) (next : α → StateM τ κ) (mode : κ) (memory : τ)
    (pos : Nat) : List Char → Except (LexError κ) (List (Token α) × κ × τ)
  | [] => .ok ([], mode, memory)
  | c :: rest =>
    match l.dfa? mode with
    | none => .error (.unknownMode mode)
    | some d => do
      let (more, code) ← (d.lead c rest).mapError .fault
      let (mode, memory) := advance next mode memory code
      let (tokens, last) ← l.lexFrom next mode memory (pos + more + 1) (rest.drop more)
      return (.at pos c rest more code :: tokens, last)
termination_by input => input.length
decreasing_by simp only [List.length_drop, List.length_cons]; omega

/-- The tokens of a text from a place on, with the last mode and the last state of `next`. -/
def lex {τ : Type} (l : Lexer α κ) (next : α → StateM τ κ) (mode : κ) (memory : τ)
    (text : String) (start : Nat) : Except (LexError κ) (List (Token α) × κ × τ) :=
  l.lexFrom next mode memory start (text.toList.drop start)

end Lexer

end Munch
