import RequestQuery.CommandLine.Arguments
import RequestQuery.CommandLine.Directory
import RequestQuery.CommandLine.Journal
import RequestQuery.CommandLine.Message
import RequestQuery.CommandLine.Run
import RequestQuery.Diagnostic.Code
import RequestQuery.Diagnostic.Error
import RequestQuery.Diagnostic.Fault
import RequestQuery.Filter.Expansion
import RequestQuery.Filter.Formula
import RequestQuery.Filter.Literal
import RequestQuery.Filter.Normal
import RequestQuery.Filter.Operator
import RequestQuery.Filter.Scalar
import RequestQuery.Filter.Settings
import RequestQuery.Filter.Term
import RequestQuery.Json.Basic
import RequestQuery.Json.Number
import RequestQuery.Json.Printer
import RequestQuery.Json.Reader
import RequestQuery.Main
import RequestQuery.Number.Binary64
import RequestQuery.Number.Decimal
import RequestQuery.Number.DecimalText
import RequestQuery.Number.Shortest
import RequestQuery.Order
import RequestQuery.Paging
import RequestQuery.Proofs.Diagnostic.Placed
import RequestQuery.Proofs.Filter.Alternatives
import RequestQuery.Proofs.Filter.Completeness
import RequestQuery.Proofs.Filter.Composition
import RequestQuery.Proofs.Filter.Configuration
import RequestQuery.Proofs.Filter.Derivation
import RequestQuery.Proofs.Filter.Expansion
import RequestQuery.Proofs.Filter.Faults
import RequestQuery.Proofs.Filter.Formula
import RequestQuery.Proofs.Filter.Grouping
import RequestQuery.Proofs.Filter.Marks
import RequestQuery.Proofs.Filter.Meaning
import RequestQuery.Proofs.Filter.NestingLimit
import RequestQuery.Proofs.Filter.Normalization
import RequestQuery.Proofs.Filter.NumberFaults
import RequestQuery.Proofs.Filter.Numerals
import RequestQuery.Proofs.Filter.Parentheses
import RequestQuery.Proofs.Filter.Places
import RequestQuery.Proofs.Filter.Relaxation
import RequestQuery.Proofs.Filter.RoundTrip
import RequestQuery.Proofs.Filter.Scalar
import RequestQuery.Proofs.Filter.Settings
import RequestQuery.Proofs.Filter.Shape
import RequestQuery.Proofs.Filter.Shift
import RequestQuery.Proofs.Filter.Soundness
import RequestQuery.Proofs.Filter.Unambiguity
import RequestQuery.Proofs.Filter.Walk
import RequestQuery.Proofs.Filter.Wire
import RequestQuery.Proofs.Number.Decimal
import RequestQuery.Proofs.Order.RoundTrip
import RequestQuery.Proofs.Reading.Agreement
import RequestQuery.Proofs.Reading.Balanced
import RequestQuery.Proofs.Reading.Parser
import RequestQuery.Proofs.Reading.Stops
import RequestQuery.Proofs.Request.Dispatch
import RequestQuery.Proofs.Request.Paging
import RequestQuery.Proofs.Request.Wire
import RequestQuery.Proofs.Select.Absorption
import RequestQuery.Proofs.Select.Beginnings
import RequestQuery.Proofs.Select.Conflicts
import RequestQuery.Proofs.Select.Equality
import RequestQuery.Proofs.Select.Faults
import RequestQuery.Proofs.Select.FilterParameter
import RequestQuery.Proofs.Select.Join
import RequestQuery.Proofs.Select.Levels
import RequestQuery.Proofs.Select.Lossless
import RequestQuery.Proofs.Select.NestingLimit
import RequestQuery.Proofs.Select.Parameters
import RequestQuery.Proofs.Select.PathLimit
import RequestQuery.Proofs.Select.Paths
import RequestQuery.Proofs.Select.Relaxation
import RequestQuery.Proofs.Select.Relocation
import RequestQuery.Proofs.Select.Rendering
import RequestQuery.Proofs.Select.Separation
import RequestQuery.Proofs.Select.Shape
import RequestQuery.Proofs.Select.ShortHands
import RequestQuery.Proofs.Select.Spots
import RequestQuery.Proofs.Select.Steps
import RequestQuery.Proofs.Select.Union
import RequestQuery.Proofs.Select.Wire
import RequestQuery.Proofs.Text.Positions
import RequestQuery.Proofs.Text.Slices
import RequestQuery.Reading.Name
import RequestQuery.Reading.Nesting
import RequestQuery.Reading.Parser
import RequestQuery.Request
import RequestQuery.Select.Item
import RequestQuery.Select.Merge
import RequestQuery.Select.Node
import RequestQuery.Select.Path
import RequestQuery.SettingsDocument
import RequestQuery.Table
import RequestQuery.Text.Blank
import RequestQuery.Text.Concealed
import RequestQuery.Text.Escaped
import RequestQuery.Text.Span
import RequestQuery.Text.Split
