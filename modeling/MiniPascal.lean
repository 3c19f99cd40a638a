import MiniPascal.Editor.Wire
import MiniPascal.Main
import MiniPascal.Proofs.Tree.Basic
import MiniPascal.Proofs.Tree.Typing
import MiniPascal.Proofs.Tree.Translation
import MiniPascal.Proofs.Reading.Production
import MiniPascal.Proofs.Reading.Expression
import MiniPascal.Proofs.Reading.ExpressionDecision
import MiniPascal.Proofs.Reading.Statement
import MiniPascal.Proofs.Reading.StatementDecision
import MiniPascal.Proofs.Reading.Declarations
import MiniPascal.Proofs.Reading.Program
import MiniPascal.Proofs.Reading.Source
import MiniPascal.Proofs.Reading.Acceptance
import MiniPascal.Proofs.Machine.Steps
import MiniPascal.Proofs.Semantics.Evaluation
import MiniPascal.Proofs.Machine.Expression
import MiniPascal.Proofs.Machine.Targets
import MiniPascal.Proofs.Machine.Statement
import MiniPascal.Proofs.Machine.Program
import MiniPascal.Proofs.Machine.Preservation
import MiniPascal.Proofs.Machine.Shape
import MiniPascal.Proofs.Machine.Safety
import MiniPascal.Proofs.Machine.Trace
import MiniPascal.Proofs.Machine.Jumps
import MiniPascal.Proofs.Machine.Limits
import MiniPascal.Proofs.Scan.Layout
import MiniPascal.Proofs.Scan.Gap
import MiniPascal.Proofs.Scan.Calls
import MiniPascal.Proofs.Scan.Lossless
import MiniPascal.Proofs.Scan.Errors
import MiniPascal.Proofs.Reading.Progress
import MiniPascal.Proofs.Reading.Diagnostics
import MiniPascal.Proofs.Scan.Locality
import MiniPascal.Proofs.Scan.Apart
import MiniPascal.Proofs.Scan.Pieces
import MiniPascal.Proofs.Scan.Prefix
import MiniPascal.Proofs.Reading.Trailing
import MiniPascal.Proofs.Decimal.Binary
import MiniPascal.Proofs.Decimal.Rounding
import MiniPascal.Proofs.Decimal.Exact
import MiniPascal.Proofs.Decimal.Shortest
import MiniPascal.Proofs.Json.Number
import MiniPascal.Proofs.Json.Layout
import MiniPascal.Proofs.Reading.Constants
import MiniPascal.Proofs.Wire.RoundTrip
import MiniPascal.Proofs.Editor.Position
import MiniPascal.Proofs.Reading.Places
import MiniPascal.Proofs.Editor.Coordinates
import MiniPascal.Proofs.Editor.Answers
import MiniPascal.Proofs.Tree.Regions
import MiniPascal.Proofs.Machine.ControlFlow
import MiniPascal.Proofs.Scan.Blanking
import MiniPascal.Proofs.Reading.Malformed
import MiniPascal.Proofs.Scan.Spacing
import MiniPascal.Proofs.Reading.Kinds
import MiniPascal.Proofs.Editor.Tracking
import MiniPascal.Proofs.Editor.Highlights
import MiniPascal.Proofs.Reading.Continuation
import MiniPascal.Proofs.Reading.Renaming
import MiniPascal.Proofs.Decimal.Order
import MiniPascal.Proofs.Machine.Comparison
import MiniPascal.Proofs.Reading.Rejections
import MiniPascal.Proofs.Reading.Unfinished
import MiniPascal.Proofs.Reading.Heading
import MiniPascal.Proofs.Editor.Alignment
import MiniPascal.Proofs.Machine.Remains
import MiniPascal.Proofs.Machine.Forward
import MiniPascal.Proofs.Scopes.Reachable
import MiniPascal.Proofs.Text.Table
import MiniPascal.Proofs.Scan.Numerals
import MiniPascal.Proofs.Machine.Integers
import MiniPascal.Proofs.Text.Complete
import MiniPascal.Proofs.Text.Numbers
import MiniPascal.Proofs.Machine.Output
import MiniPascal.Proofs.Listing.Literals
import MiniPascal.Proofs.Listing.Program
import MiniPascal.Proofs.Scan.Lexed
import MiniPascal.Proofs.Scan.Constants
import MiniPascal.Proofs.Machine.Literals
import MiniPascal.Proofs.Scan.Symbols
import MiniPascal.Proofs.Reading.Operands
import MiniPascal.Proofs.Reading.Operators
import MiniPascal.Proofs.Machine.StepLimit
import MiniPascal.Proofs.Command.Arguments
import MiniPascal.Proofs.Command.Accepted
import MiniPascal.Proofs.Command.Pieces
import MiniPascal.Proofs.Command.Composition
import MiniPascal.Proofs.Scan.Skipping
import MiniPascal.Proofs.Reading.Journal
import MiniPascal.Proofs.Reading.Watch
import MiniPascal.Proofs.Reading.Moving
import MiniPascal.Proofs.Reading.Halting
import MiniPascal.Proofs.Reading.Advances
