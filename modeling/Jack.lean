import Jack.Analysis
import Jack.AssocList
import Jack.Command.Arguments
import Jack.Command.Desk
import Jack.Command.Notice
import Jack.Command.Path
import Jack.Command.Run
import Jack.Command.Workspace
import Jack.Diagnostic
import Jack.Grammar.Phrase
import Jack.Grammar.Rules
import Jack.Json
import Jack.Main
import Jack.Parse.Call
import Jack.Parse.Outcome
import Jack.Parse.Run
import Jack.Parse.Session
import Jack.Proofs.Grammar.Completion
import Jack.Proofs.Grammar.Derivation
import Jack.Proofs.Grammar.LookAhead
import Jack.Proofs.Grammar.Spelling
import Jack.Proofs.Parse.Completeness
import Jack.Proofs.Parse.Exactness
import Jack.Proofs.Parse.Expectation
import Jack.Proofs.Parse.FirstError
import Jack.Proofs.Parse.Locality
import Jack.Proofs.Parse.NestingLimit
import Jack.Proofs.Parse.Runs
import Jack.Proofs.Parse.Soundness
import Jack.Proofs.Tree.Levels
import Jack.Settings.Basic
import Jack.Settings.Read
import Jack.Text.LineTable
import Jack.Text.Markup
import Jack.Text.Numeral
import Jack.Text.Span
import Jack.Token.Basic
import Jack.Token.Cursor
import Jack.Token.Kind
import Jack.Token.Piece
import Jack.Token.Scan
import Jack.Toml.Document
import Jack.Toml.Lexeme
import Jack.Toml.Table
import Jack.Trace
import Jack.Tree.Node
import Jack.Tree.Rule
import Jack.Proofs.Parse.CleanSteps
import Jack.Proofs.Token.Layout
import Jack.Proofs.Token.Pieces
import Jack.Proofs.Token.Lossless
import Jack.Proofs.Token.Writing
import Jack.Proofs.Tree.Likeness
import Jack.Proofs.Trace.Decoding
import Jack.Proofs.Trace.Injectivity
import Jack.Proofs.Parse.Truncation
import Jack.Proofs.Parse.LongestPhrase
import Jack.Proofs.Text.Lines
import Jack.Proofs.Diagnostic.Places
import Jack.Proofs.Command.Paths
import Jack.Proofs.Command.Files
import Jack.Proofs.Command.Sources
import Jack.Proofs.Command.Steps
import Jack.Proofs.Command.Batch
import Jack.Proofs.Trace.Markers
import Jack.Proofs.Trace.Forests
import Jack.Proofs.Trace.Queries
import Jack.Proofs.Tree.Calls
import Jack.Proofs.Grammar.Calls
import Jack.Proofs.Parse.CallTable
import Jack.Proofs.Tree.Kindred
import Jack.Proofs.Parse.Kinds
import Jack.Proofs.Token.Fronts
import Jack.Proofs.Token.Faults
import Jack.Proofs.Token.LineBreaks
import Jack.Proofs.Json.Reading
import Jack.Proofs.Json.Trees
import Jack.Proofs.Trace.OneLineEach
import Jack.Proofs.Text.LineLookup
import Jack.Proofs.Diagnostic.OneLine
import Jack.Proofs.Parse.Headroom
import Jack.Proofs.Command.Overwriting
import Jack.Proofs.Token.CommentPattern
import Jack.Proofs.Token.LongestMatch
import Jack.Proofs.Text.Entities
