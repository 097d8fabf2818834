import LambdaTree.Cursor
import LambdaTree.Fault
import LambdaTree.Grammar
import LambdaTree.Input
import LambdaTree.Lexer
import LambdaTree.ParseError
import LambdaTree.Parser.Basic
import LambdaTree.Parser.Diagnostic
import LambdaTree.Parser.Run
import LambdaTree.Parser.Table
import LambdaTree.Proofs.Grammar.Derivation
import LambdaTree.Proofs.Grammar.Descent
import LambdaTree.Proofs.Grammar.Diagnosis
import LambdaTree.Proofs.Grammar.Language
import LambdaTree.Proofs.Grammar.Nesting
import LambdaTree.Proofs.Grammar.Outcome
import LambdaTree.Proofs.Grammar.Recognition
import LambdaTree.Proofs.Grammar.Unbounded
import LambdaTree.Proofs.Grammar.Viability
import LambdaTree.Proofs.Lexer.Scan
import LambdaTree.Proofs.Lexer.Tiling
import LambdaTree.Proofs.Parser.Inputs
import LambdaTree.Proofs.Parser.Meaning
import LambdaTree.Proofs.Parser.Memo
import LambdaTree.Proofs.Parser.Plain
import LambdaTree.Proofs.Parser.Transparency
import LambdaTree.Proofs.RoundTrip
import LambdaTree.Proofs.Term.Equality
import LambdaTree.Proofs.Term.Lexemes
import LambdaTree.Recipe.Basic
import LambdaTree.Recipe.Value
import LambdaTree.Sequence
import LambdaTree.Slice
import LambdaTree.Span
import LambdaTree.Symbol
import LambdaTree.Term.Basic
import LambdaTree.Term.Describe
import LambdaTree.Term.Fold
import LambdaTree.Term.Graph
import LambdaTree.Term.Layout
import LambdaTree.Term.Measure
import LambdaTree.Term.Note
import LambdaTree.Term.Print
import LambdaTree.Term.Scope
import LambdaTree.Term.Shape
import LambdaTree.Term.Standard
import LambdaTree.Text.Lines
import LambdaTree.Text.Printable
import LambdaTree.Text.Quoted
import LambdaTree.Token
import LambdaTree.Proofs.Lexer.MaximalMunch
import LambdaTree.Proofs.Rejection
import LambdaTree.Proofs.Parser.Calls
import LambdaTree.Proofs.Parser.Lockstep
import LambdaTree.Proofs.Grammar.Spans
import LambdaTree.Proofs.Spelling
import LambdaTree.Proofs.Parser.Places
import LambdaTree.Proofs.Parser.Suffixes
import LambdaTree.Proofs.Parser.Termination
import LambdaTree.Proofs.Grammar.Termination
import LambdaTree.Proofs.Grammar.Overflow
import LambdaTree.Proofs.Parser.Triples
import LambdaTree.Proofs.Grammar.Visits
import LambdaTree.Proofs.Grammar.NestingLimit
import LambdaTree.Proofs.Parser.AtMostOnce
import LambdaTree.Proofs.Term.Alike
import LambdaTree.Proofs.Term.PostOrder
import LambdaTree.Proofs.Term.PreOrder
import LambdaTree.Proofs.Term.Sizes
import LambdaTree.Proofs.Term.Occurrences
import LambdaTree.Proofs.Term.Binary64
import LambdaTree.Proofs.Term.Roots
import LambdaTree.Proofs.Parser.OperatorChain
import LambdaTree.Proofs.Term.Enclosure
import LambdaTree.Proofs.Term.Omission
import LambdaTree.Proofs.Parentheses
import LambdaTree.Proofs.Term.Description
import LambdaTree.Proofs.Sequence.Slices
import LambdaTree.Proofs.Sequence.Views
import LambdaTree.Proofs.Grammar.Messages
import LambdaTree.Proofs.Parser.Deepening
import LambdaTree.Proofs.Parser.Repetition
