import Munch.Binary.Basic
import Munch.Binary.Lexer
import Munch.ByName
import Munch.Compile
import Munch.Config
import Munch.Config.Load
import Munch.Config.Wrapped
import Munch.Dfa.Basic
import Munch.Dfa.Minimize
import Munch.Dfa.Subset
import Munch.Dfa.Word
import Munch.Fault
import Munch.Fragment
import Munch.Fragment.Language
import Munch.Lexer
import Munch.Nfa.Basic
import Munch.Nfa.Memo
import Munch.Nfa.Moves
import Munch.Nfa.Thompson
import Munch.Nfa.Word
import Munch.Pattern.Basic
import Munch.Pattern.Derivation
import Munch.Pattern.Error
import Munch.Pattern.Eval
import Munch.Pattern.Grammar
import Munch.Peg
import Munch.Proofs.Binary.Damage
import Munch.Proofs.Binary.Forms
import Munch.Proofs.Binary.Lexer
import Munch.Proofs.Binary.RoundTrip
import Munch.Proofs.Checked
import Munch.Proofs.Compile
import Munch.Proofs.Compile.Shape
import Munch.Proofs.Compile.TieBreak
import Munch.Proofs.Dfa.Alike
import Munch.Proofs.Dfa.Builder
import Munch.Proofs.Dfa.Codes
import Munch.Proofs.Dfa.Connected
import Munch.Proofs.Dfa.Determinize
import Munch.Proofs.Dfa.Minimize
import Munch.Proofs.Dfa.Partition
import Munch.Proofs.Dfa.Quotient
import Munch.Proofs.Dfa.Refinement
import Munch.Proofs.Dfa.Rounds
import Munch.Proofs.Dfa.Search
import Munch.Proofs.Dfa.Steps
import Munch.Proofs.Dfa.Subset
import Munch.Proofs.Dfa.Tidy
import Munch.Proofs.Fragment
import Munch.Proofs.Lexer
import Munch.Proofs.Lexer.Calls
import Munch.Proofs.Lexer.Cover
import Munch.Proofs.Lexer.Resume
import Munch.Proofs.Nfa.Codes
import Munch.Proofs.Nfa.Memo
import Munch.Proofs.Nfa.Moves
import Munch.Proofs.Nfa.Reachable
import Munch.Proofs.Nfa.Rules
import Munch.Proofs.Nfa.Thompson
import Munch.Proofs.Nfa.Words
import Munch.Proofs.Pattern.Characters
import Munch.Proofs.Pattern.CodePoint
import Munch.Proofs.Pattern.Complete
import Munch.Proofs.Pattern.Concat
import Munch.Proofs.Pattern.Derivation
import Munch.Proofs.Pattern.Escaped
import Munch.Proofs.Pattern.Language
import Munch.Proofs.Pattern.Letters
import Munch.Proofs.Pattern.Normal
import Munch.Proofs.Pattern.Offset
import Munch.Proofs.Pattern.Parser
import Munch.Proofs.Pattern.Unambiguous
import Munch.Proofs.Peg
import Munch.Proofs.RangeSet.Algebra
import Munch.Proofs.RangeSet.Atoms
import Munch.Proofs.RangeSet.Canonical
import Munch.Proofs.RangeSet.Ranges
import Munch.Proofs.Rule
import Munch.Proofs.Splitter
import Munch.Proofs.StateSet
import Munch.RangeSet.Basic
import Munch.RangeSet.Gather
import Munch.RangeSet.Lemmas
import Munch.RangeSet.Text
import Munch.Rule
import Munch.Splitter
import Munch.StateSet
import Munch.Symbol
import Munch.Symbol.Text
import Munch.Text.Escape
import Munch.Text.Printable
import Munch.Toml.Basic
import Munch.Toml.Document
import Munch.Toml.Moment
import Munch.Toml.Number
import Munch.Toml.Quoted
import Munch.Toml.Table
import Munch.Toml.Value
