import Hoist.CommandLine
import Hoist.Decimal.Binary64
import Hoist.Decimal.Nearest
import Hoist.Decimal.Power
import Hoist.Decimal.Shortest
import Hoist.Flat.Location
import Hoist.Flat.Node
import Hoist.Flat.Symbol
import Hoist.Flat.Table
import Hoist.Inference
import Hoist.Literal
import Hoist.Lowering.Branch
import Hoist.Lowering.Closure
import Hoist.Lowering.Failure
import Hoist.Lowering.Grouping
import Hoist.Lowering.Loop
import Hoist.Lowering.Scope
import Hoist.Lowering.State
import Hoist.Lowering.Tree
import Hoist.Lowering.Unit
import Hoist.Main
import Hoist.Memo.Plan
import Hoist.Memo.World
import Hoist.Memo.Course
import Hoist.Memo.Traffic
import Hoist.Proofs.Subset
import Hoist.Registry
import Hoist.Report.Excerpt
import Hoist.Report.Mention
import Hoist.Report.Style
import Hoist.Sexp
import Hoist.Sexp.Pattern
import Hoist.Surface.Cursor
import Hoist.Surface.Fault
import Hoist.Surface.Grammar.Constant
import Hoist.Surface.Grammar.Expression
import Hoist.Surface.Grammar.Statement
import Hoist.Surface.Lexer
import Hoist.Surface.Numeral
import Hoist.Surface.Operator
import Hoist.Surface.Token
import Hoist.Surface.Tree
import Hoist.Surface.Tree.Printing
import Hoist.Surface.Tree.Spans
import Hoist.Text.Bytes
import Hoist.Text.Class
import Hoist.Text.Quoted
import Hoist.Proofs.Lowering.Bodies
import Hoist.Proofs.Lowering.Occurrences
import Hoist.Proofs.Lowering.Code
import Hoist.Proofs.Lowering.Reached
import Hoist.Proofs.Lowering.Context
import Hoist.Proofs.Lowering.Emission
import Hoist.Proofs.Lowering.Statements
import Hoist.Proofs.Flat.Returns
import Hoist.Proofs.CallingConvention
import Hoist.Proofs.FailedUnits
import Hoist.Proofs.KeptMeaning
import Hoist.Proofs.LoopExploration
import Hoist.Proofs.MergedResults
import Hoist.Proofs.Lowering.Rebinding
import Hoist.Proofs.TextCoverage
import Hoist.Proofs.ModuleRoundTrip
import Hoist.Proofs.LiftedConstructs
import Hoist.Proofs.BindersOnce
import Hoist.Proofs.DocumentedFailures
import Hoist.Proofs.Registration
import Hoist.Proofs.SharedComputation
import Hoist.Proofs.SharedCaches
import Hoist.Proofs.SubscribedListeners
import Hoist.Proofs.MergeUnion
import Hoist.Proofs.QuotedStrings
import Hoist.Proofs.LineEndings
import Hoist.Proofs.GroupedBodies
import Hoist.Proofs.SourceLocations
import Hoist.Proofs.ReportedPlaces
import Hoist.Proofs.PrintedNodes
import Hoist.Proofs.NestedSpans
import Hoist.Proofs.ReparsedSpans
import Hoist.Proofs.LinkedScopes
import Hoist.Proofs.LongestTokens
import Hoist.Proofs.PulledOnce
import Hoist.Proofs.ShiftedTokens
import Hoist.Proofs.IndexedTables
import Hoist.Proofs.ExcerptLines
import Hoist.Proofs.IndentedForms
