import EastConst.CommandLine
import EastConst.CommandLine.Arguments
import EastConst.CommandLine.Report
import EastConst.Conservation
import EastConst.Diagnostic
import EastConst.Directive
import EastConst.FileTree
import EastConst.Fixture
import EastConst.IndexMap
import EastConst.Json
import EastConst.Lexeme
import EastConst.Lexeme.Comment
import EastConst.Lexeme.Literal
import EastConst.Lexeme.Punctuator
import EastConst.Lexeme.Scan
import EastConst.Lexeme.Space
import EastConst.Main
import EastConst.Nesting
import EastConst.Occurrence
import EastConst.Options
import EastConst.Path
import EastConst.Plan
import EastConst.Plan.Gap
import EastConst.Plan.Group
import EastConst.Proofs.Conservation
import EastConst.Proofs.Directive
import EastConst.Proofs.Failure
import EastConst.Proofs.Group
import EastConst.Proofs.Idempotence
import EastConst.Proofs.Lexeme.Bodies
import EastConst.Proofs.Lexeme.Lookahead
import EastConst.Proofs.Lexeme.Reading
import EastConst.Proofs.Lexeme.Solid
import EastConst.Proofs.Occurrence
import EastConst.Proofs.Occurrence.Leading
import EastConst.Proofs.Plan.CarryOut
import EastConst.Proofs.Plan.Check
import EastConst.Proofs.Plan.Emission
import EastConst.Proofs.Plan.Noncrossing
import EastConst.Proofs.Plan.Pieces
import EastConst.Proofs.Plan.Rereading
import EastConst.Proofs.Plan.Rewalking
import EastConst.Proofs.Plan.Settled
import EastConst.Proofs.Token.Cover
import EastConst.Proofs.Token.Reading
import EastConst.Proofs.TypeExtent
import EastConst.Proofs.TypeExtent.Enclosure
import EastConst.Proofs.TypeExtent.Phrase
import EastConst.Proofs.Walk
import EastConst.Qualifier
import EastConst.Relocation
import EastConst.Session
import EastConst.Settings
import EastConst.Settings.Environment
import EastConst.Settings.Key
import EastConst.Settings.Toml
import EastConst.Settings.Toml.Node
import EastConst.Settings.Toml.Scalar
import EastConst.Settings.Value
import EastConst.Text.Blank
import EastConst.Text.Decimal
import EastConst.Text.Position
import EastConst.Text.Quoted
import EastConst.Text.Substitute
import EastConst.Text.Unprintable
import EastConst.Text.Utf8
import EastConst.Token
import EastConst.Token.Stream
import EastConst.TypeExtent
import EastConst.Vocabulary
import EastConst.Proofs.Plan.Accounting
import EastConst.Proofs.Plan.Lines
import EastConst.Proofs.Plan.Surroundings
import EastConst.Proofs.Visible
import EastConst.Proofs.Nesting
import EastConst.Proofs.Walk.Bracketed
import EastConst.Proofs.Walk.Frame
import EastConst.Proofs.Occurrence.Around
import EastConst.Proofs.Macro
import EastConst.Proofs.TypeExtent.Relabel
import EastConst.Proofs.Layout.Spaced
import EastConst.Proofs.Layout
import EastConst.Proofs.Lexeme.Ending
import EastConst.Proofs.Text.Line
import EastConst.Proofs.Plan.TrailingBlank
import EastConst.Proofs.Diagnostic
import EastConst.Proofs.Occurrence.Skipped
import EastConst.Proofs.Token.Parens
import EastConst.Proofs.Directive.Line
import EastConst.Proofs.Occurrence.Complete
import EastConst.Proofs.Plan.Statement
import EastConst.Proofs.Text.Utf8
import EastConst.Proofs.FileTree
import EastConst.Proofs.CommandLine
import EastConst.Proofs.Walk.TrailingReturn
import EastConst.Proofs.Options
import EastConst.Proofs.Plan.Independence
import EastConst.Proofs.TypeExtent.Grammar
import EastConst.Proofs.TypeExtent.Greedy
import EastConst.Proofs.TypeExtent.Budget
import EastConst.Proofs.Plan.Budget
import EastConst.Proofs.Text.Boundary
import EastConst.Proofs.Text.Position
import EastConst.Proofs.Lexeme.Rules
import EastConst.Proofs.Lexeme.Longest
import EastConst.Proofs.Lexeme.Quoted
import EastConst.Proofs.Diagnostic.Exact
import EastConst.Proofs.Text.Lines
import EastConst.Proofs.Lexeme.LineComment
import EastConst.Proofs.Diagnostic.Excerpt
import EastConst.Proofs.Walk.Suppression
