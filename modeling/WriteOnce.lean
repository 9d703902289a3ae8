import WriteOnce.Text.Quoted
import WriteOnce.Text.Blank
import WriteOnce.Text.Numeral
import WriteOnce.Token.Lexer
import WriteOnce.Syntax.Basic
import WriteOnce.Syntax.Tree
import WriteOnce.Grammar.Basic
import WriteOnce.Grammar.Lookahead
import WriteOnce.Syntax.Source
import WriteOnce.Syntax.Fingerprint
import WriteOnce.Options
import WriteOnce.Scope.Basic
import WriteOnce.Analysis.Error
import WriteOnce.Syntax.Fragment
import WriteOnce.Scope.Collection
import WriteOnce.FlowGraph.Reach
import WriteOnce.FlowGraph.Draft
import WriteOnce.FlowGraph.OfRoutine
import WriteOnce.WriteCount.Result
import WriteOnce.Analysis.Program
import WriteOnce.Suggestion
import WriteOnce.CommandLine.Outcome
import WriteOnce.Main
import WriteOnce.Proofs.Reach
import WriteOnce.Proofs.Behavior
import WriteOnce.Proofs.Execution
import WriteOnce.Proofs.Aim
import WriteOnce.Proofs.Labels
import WriteOnce.Proofs.Drafting
import WriteOnce.Proofs.Implements
import WriteOnce.Proofs.Surroundings
import WriteOnce.Proofs.Expressions
import WriteOnce.Proofs.Statements
import WriteOnce.Proofs.JumpTargets
import WriteOnce.Proofs.TryStatements
import WriteOnce.Proofs.Routines
import WriteOnce.Proofs.PathsOfRoutines
import WriteOnce.Proofs.Counts
import WriteOnce.Proofs.Sweep
import WriteOnce.Proofs.SweepEnds
import WriteOnce.Proofs.Masks
import WriteOnce.Proofs.Reasons
import WriteOnce.Proofs.Declared
import WriteOnce.Proofs.Charts
import WriteOnce.Proofs.Verdicts
import WriteOnce.Proofs.Modifiers
import WriteOnce.Proofs.Cores
import WriteOnce.Proofs.Outcomes
import WriteOnce.Proofs.TreeReading
import WriteOnce.Proofs.DeclaredPlaces
import WriteOnce.Proofs.Gathering
import WriteOnce.Proofs.MovedCounts
import WriteOnce.Proofs.MovedWalks
import WriteOnce.Proofs.Codes
import WriteOnce.Proofs.CoreVerdicts
import WriteOnce.Proofs.Cancellation
import WriteOnce.Proofs.Caching
import WriteOnce.Proofs.MovedReports
import WriteOnce.Proofs.Layouts
import WriteOnce.Proofs.Reports
import WriteOnce.Proofs.WellBuilt
import WriteOnce.Proofs.FailedMembers
import WriteOnce.Proofs.LambdaRoutines
import WriteOnce.Proofs.QuotedContents
import WriteOnce.Proofs.HiddenVerdicts
import WriteOnce.Proofs.SourceSlices
import WriteOnce.Proofs.EndingPrograms
import WriteOnce.Proofs.CommandLines
import WriteOnce.Proofs.CyclesOfRoutines
import WriteOnce.Proofs.WriteSummaries
import WriteOnce.Proofs.BuilderEnds
import WriteOnce.Proofs.LexicalNames
import WriteOnce.Proofs.Partitions
import WriteOnce.Proofs.MemberLabels
import WriteOnce.Proofs.Streams
import WriteOnce.Proofs.PrunedGraphs
import WriteOnce.Proofs.SweepLengths
import WriteOnce.Proofs.ExpressionRuns
import WriteOnce.Proofs.CapturedNames
import WriteOnce.Proofs.Identifiers
import WriteOnce.Proofs.EnsuringParsers
import WriteOnce.Proofs.TypeLookahead
import WriteOnce.Proofs.RespacedSources
import WriteOnce.Proofs.WrittenOperators
import WriteOnce.Proofs.PrecedenceTrees
import WriteOnce.Proofs.ShapedTrees
import WriteOnce.Proofs.ShapedProductions
import WriteOnce.Proofs.ParsedShapes
import WriteOnce.Proofs.CollectorEnds
import WriteOnce.Proofs.MemberSearch
