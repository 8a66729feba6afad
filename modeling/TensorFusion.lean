import TensorFusion.Catalog
import TensorFusion.CommandLine.Arguments
import TensorFusion.CommandLine.Files
import TensorFusion.CommandLine.Report
import TensorFusion.Config
import TensorFusion.Error
import TensorFusion.Event
import TensorFusion.Executor
import TensorFusion.Graph.Arena
import TensorFusion.Graph.Build
import TensorFusion.Graph.Fuse
import TensorFusion.Graph.Match
import TensorFusion.Json.Reader
import TensorFusion.Json.Token
import TensorFusion.Json.Writer
import TensorFusion.Main
import TensorFusion.Number.Binary64
import TensorFusion.Number.Decimal
import TensorFusion.Number.Literal
import TensorFusion.Operator.Basic
import TensorFusion.Operator.Run
import TensorFusion.Operator.Shape
import TensorFusion.Optimizer
import TensorFusion.Pattern
import TensorFusion.Program.Basic
import TensorFusion.Program.Document
import TensorFusion.Program.Text
import TensorFusion.Proofs.CommandLine.Report
import TensorFusion.Proofs.Declared
import TensorFusion.Proofs.Equality
import TensorFusion.Proofs.Executor.Interpreter
import TensorFusion.Proofs.Executor.Rules
import TensorFusion.Proofs.Executor.Shapes
import TensorFusion.Proofs.Executor.Solution
import TensorFusion.Proofs.Executor.Stages
import TensorFusion.Proofs.Graph.Apart
import TensorFusion.Proofs.Graph.Build
import TensorFusion.Proofs.Graph.Edges
import TensorFusion.Proofs.Graph.FanOut
import TensorFusion.Proofs.Graph.Fuse
import TensorFusion.Proofs.Graph.Matches
import TensorFusion.Proofs.Graph.Merge
import TensorFusion.Proofs.Graph.Merged
import TensorFusion.Proofs.Graph.Nearest
import TensorFusion.Proofs.Graph.Paired
import TensorFusion.Proofs.Graph.Part
import TensorFusion.Proofs.Graph.Path
import TensorFusion.Proofs.Graph.Sound
import TensorFusion.Proofs.Graph.Specified
import TensorFusion.Proofs.Graph.Walk
import TensorFusion.Proofs.Json.Parse
import TensorFusion.Proofs.Json.Readable
import TensorFusion.Proofs.Json.Readings
import TensorFusion.Proofs.Json.Scan
import TensorFusion.Proofs.Json.Word
import TensorFusion.Proofs.Number.Literal
import TensorFusion.Proofs.Number.Numeral
import TensorFusion.Proofs.Number.Rounding
import TensorFusion.Proofs.Pass.Answers
import TensorFusion.Proofs.Pass.Composed
import TensorFusion.Proofs.Pass.Conserved
import TensorFusion.Proofs.Pass.Disabled
import TensorFusion.Proofs.Pass.Frame
import TensorFusion.Proofs.Pass.Fusions
import TensorFusion.Proofs.Pass.History
import TensorFusion.Proofs.Pass.Interleaved
import TensorFusion.Proofs.Pass.Ledger
import TensorFusion.Proofs.Pass.Linear
import TensorFusion.Proofs.Pass.Live
import TensorFusion.Proofs.Pass.OneShot
import TensorFusion.Proofs.Pass.Optimize
import TensorFusion.Proofs.Pass.Readable
import TensorFusion.Proofs.Pass.Reach
import TensorFusion.Proofs.Pass.Renumber
import TensorFusion.Proofs.Pass.Survivors
import TensorFusion.Proofs.Pass.Tally
import TensorFusion.Proofs.Pass.Total
import TensorFusion.Proofs.Pass.Turn
import TensorFusion.Proofs.Program.Document
import TensorFusion.Proofs.Results
import TensorFusion.Proofs.Sample
import TensorFusion.Proofs.Standard.AtOnce
import TensorFusion.Proofs.Standard.Chosen
import TensorFusion.Proofs.Standard.Idempotent
import TensorFusion.Proofs.Standard.Operands
import TensorFusion.Proofs.Standard.Operators
import TensorFusion.Proofs.Standard.Reads
import TensorFusion.Proofs.Standard.Rebuild
import TensorFusion.Proofs.Standard.Rewrite
import TensorFusion.Proofs.Standard.Safe
import TensorFusion.Proofs.Standard.Semantics
import TensorFusion.Proofs.Standard.Shapes
import TensorFusion.Proofs.Standard.Stages
import TensorFusion.Proofs.Standard.Templates
import TensorFusion.Proofs.Standard.Writers
import TensorFusion.Proofs.Table
import TensorFusion.Registry
import TensorFusion.Template.Basic
import TensorFusion.Template.Standard
import TensorFusion.Tensor.Basic
import TensorFusion.Tensor.Broadcast
import TensorFusion.Tensor.Library
import TensorFusion.Tensor.Reference
import TensorFusion.Text.Digit
import TensorFusion.Text.Points
import TensorFusion.Text.Printable
import TensorFusion.Text.Quoted
import TensorFusion.Value.Basic
import TensorFusion.Value.Number
import TensorFusion.Value.Table
import TensorFusion.Value.Text
import TensorFusion.Proofs.Graph.Relabel
import TensorFusion.Proofs.Pass.Relabel
import TensorFusion.Proofs.Executor.Aligned
import TensorFusion.Proofs.Graph.Truncated
import TensorFusion.Proofs.Program.Normal
import TensorFusion.Proofs.Graph.Mirrored
