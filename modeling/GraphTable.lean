import GraphTable.Binary64.Arithmetic
import GraphTable.Binary64.Basic
import GraphTable.Binary64.Decimal
import GraphTable.Build
import GraphTable.Bytes
import GraphTable.Codec.Basic
import GraphTable.Codec.Binary
import GraphTable.Codec.Coding
import GraphTable.DataType
import GraphTable.Date
import GraphTable.Edge
import GraphTable.Error.Query
import GraphTable.Error.Store
import GraphTable.Glob
import GraphTable.Graph
import GraphTable.HandleCache
import GraphTable.Hash
import GraphTable.Key.Mapping
import GraphTable.Key.RowKey
import GraphTable.Plan.Basic
import GraphTable.Plan.Disjunct
import GraphTable.Predicate.Expr
import GraphTable.Predicate.Recognizer
import GraphTable.Predicate.Scalar
import GraphTable.Predicate.Validate
import GraphTable.Proofs.Build.Completeness
import GraphTable.Proofs.Build.Fresh
import GraphTable.Proofs.Build.Progress
import GraphTable.Proofs.Build.Sources
import GraphTable.Proofs.Build.Steps
import GraphTable.Proofs.Build.Walks
import GraphTable.Proofs.Build.WellFormed
import GraphTable.Proofs.Bytes.Number
import GraphTable.Proofs.Bytes.Order
import GraphTable.Proofs.Codec.Binary
import GraphTable.Proofs.Codec.Bounds
import GraphTable.Proofs.Codec.Coding
import GraphTable.Proofs.Codec.Nulls
import GraphTable.Proofs.Codec.Pad
import GraphTable.Proofs.Codec.RoundTrip
import GraphTable.Proofs.Codec.Shortest
import GraphTable.Proofs.Column.Names
import GraphTable.Proofs.Date.Order
import GraphTable.Proofs.Date.Reading
import GraphTable.Proofs.Edge.Lists
import GraphTable.Proofs.Glob.Cache
import GraphTable.Proofs.Glob.Expression
import GraphTable.Proofs.Glob.Matching
import GraphTable.Proofs.HandleCache.Account
import GraphTable.Proofs.Key.Paths
import GraphTable.Proofs.Key.Pieces
import GraphTable.Proofs.Key.Reading
import GraphTable.Proofs.Outcome
import GraphTable.Proofs.Plan.Alternatives
import GraphTable.Proofs.Plan.Bounds
import GraphTable.Proofs.Plan.Constraints
import GraphTable.Proofs.Plan.Coverage
import GraphTable.Proofs.Plan.Misplaced
import GraphTable.Proofs.Plan.Precision
import GraphTable.Proofs.Plan.Row
import GraphTable.Proofs.Plan.Template
import GraphTable.Proofs.Predicate.Arithmetic
import GraphTable.Proofs.Predicate.Closed
import GraphTable.Proofs.Predicate.Comparison
import GraphTable.Proofs.Predicate.Disjuncts
import GraphTable.Proofs.Predicate.Distribution
import GraphTable.Proofs.Predicate.Membership
import GraphTable.Proofs.Predicate.Paths
import GraphTable.Proofs.Predicate.Safety
import GraphTable.Proofs.Predicate.Scalars
import GraphTable.Proofs.Predicate.Sharing
import GraphTable.Proofs.Predicate.Typing
import GraphTable.Proofs.Predicate.Walk
import GraphTable.Proofs.Predicate.WholeNumbers
import GraphTable.Proofs.Results.Agreement
import GraphTable.Proofs.Results.Failure
import GraphTable.Proofs.Results.Feeding
import GraphTable.Proofs.Results.Laziness
import GraphTable.Proofs.Results.Lookups
import GraphTable.Proofs.Results.Mixed
import GraphTable.Proofs.Results.Opening
import GraphTable.Proofs.Results.Order
import GraphTable.Proofs.Results.Ordered
import GraphTable.Proofs.Results.Sorting
import GraphTable.Proofs.Results.Stream
import GraphTable.Proofs.Service.Deletion
import GraphTable.Proofs.Table.Deletion
import GraphTable.Proofs.Table.History
import GraphTable.Proofs.Text.Bytes
import GraphTable.Proofs.Value.Order
import GraphTable.Results.Assembler
import GraphTable.Results.Order
import GraphTable.Results.Stream
import GraphTable.Row
import GraphTable.Scan
import GraphTable.Schema
import GraphTable.Service.Basic
import GraphTable.Service.Config
import GraphTable.SortedList
import GraphTable.Table.Basic
import GraphTable.Table.Source
import GraphTable.Text.Basic
import GraphTable.Text.Case
import GraphTable.Text.Json
import GraphTable.Text.Utf8
import GraphTable.Value
