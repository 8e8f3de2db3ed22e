import GuardElision.Word
import GuardElision.Interval
import GuardElision.ClassTable
import GuardElision.Stamp
import GuardElision.Node
import GuardElision.IdMap
import GuardElision.Value
import GuardElision.Fault
import GuardElision.Flow.Digraph
import GuardElision.Flow.Cycle
import GuardElision.Flow.Layout
import GuardElision.Flow.Dominators
import GuardElision.Elimination.Config
import GuardElision.Graph.Basic
import GuardElision.Graph.Edges
import GuardElision.Graph.Forward
import GuardElision.Graph.Printer
import GuardElision.Condition
import GuardElision.Facts.Basic
import GuardElision.Facts.Lookup
import GuardElision.Facts.Push
import GuardElision.Attempt
import GuardElision.Builder
import GuardElision.Graph.Structure
import GuardElision.Placement
import GuardElision.Execution
import GuardElision.Event
import GuardElision.Cleanup.Changes
import GuardElision.Cleanup.Local
import GuardElision.Cleanup.Whole
import GuardElision.Elimination.Tally
import GuardElision.Elimination.Walk
import GuardElision.Elimination.Run
import GuardElision.Pipeline.Context
import GuardElision.Pipeline.Pass
import GuardElision.Pipeline.Schedule
import GuardElision.Proofs.Flow.Search
import GuardElision.Proofs.Flow.Immediate
import GuardElision.Proofs.Flow.Layout
import GuardElision.Proofs.Flow.Dominance
import GuardElision.Proofs.ClassTable
import GuardElision.Proofs.StampImprovement
import GuardElision.Proofs.Facts.Meaning
import GuardElision.Proofs.Facts.Soundness
import GuardElision.Proofs.Facts.Monotone
import GuardElision.Proofs.Execution.Eval
import GuardElision.Proofs.Flow.Route
import GuardElision.Proofs.Execution.Conforming
import GuardElision.Proofs.Graph.Reach
import GuardElision.Proofs.Graph.Links
import GuardElision.Proofs.Graph.Cuts
import GuardElision.Proofs.Graph.Turns
import GuardElision.Proofs.Graph.Ways
import GuardElision.Proofs.Graph.InOrder
import GuardElision.Proofs.Graph.ControlPaths
import GuardElision.Proofs.Elimination.GuardEdits
import GuardElision.Proofs.Execution.Condition
import GuardElision.Proofs.Execution.Truth
import GuardElision.Proofs.Execution.Unstamped
import GuardElision.Proofs.Execution.TestOutcome
import GuardElision.Proofs.Facts.Origin
import GuardElision.Proofs.Facts.Rollback
import GuardElision.Proofs.Facts.KeptRanges
import GuardElision.Proofs.Facts.Agreement
import GuardElision.Proofs.Pipeline.Unchanged
import GuardElision.Proofs.Pipeline.Independence
import GuardElision.Proofs.Pipeline.Fixpoint
import GuardElision.Proofs.Pipeline.History
import GuardElision.Proofs.Pipeline.Quiet
import GuardElision.Proofs.Pipeline.Failures
import GuardElision.Proofs.Attempt
import GuardElision.Proofs.Cleanup.Removal
import GuardElision.Proofs.Cleanup.Prune
import GuardElision.Proofs.Cleanup.Orphans
import GuardElision.Proofs.Cleanup.Settling
import GuardElision.Proofs.Cleanup.Collapse
import GuardElision.Proofs.Cleanup.Restore
import GuardElision.Proofs.Layers.Basic
import GuardElision.Proofs.Layers.Edits
import GuardElision.Proofs.Layers.Cleaning
import GuardElision.Proofs.Cleanup.Trim
import GuardElision.Proofs.Cleanup.Phis
import GuardElision.Proofs.Elimination.Transitions
import GuardElision.Proofs.Elimination.Nesting
import GuardElision.Proofs.Elimination.FirstTrap
import GuardElision.Proofs.IntervalAnswers
import GuardElision.Proofs.IntervalNarrowing
import GuardElision.Proofs.IntervalOrder
import GuardElision.Proofs.Idempotence.Reading
import GuardElision.Proofs.Idempotence.Posts
import GuardElision.Proofs.Idempotence.Settle
import GuardElision.Proofs.Idempotence.Straight
import GuardElision.Proofs.Idempotence.Twin
import GuardElision.Proofs.Idempotence.Cover
import GuardElision.Proofs.Idempotence.Tidy
import GuardElision.Proofs.Idempotence.Eliminate
import GuardElision.Proofs.Layers.Rounds
import GuardElision.Proofs.Effects.MayBecome
import GuardElision.Proofs.Effects.Cleaning
import GuardElision.Proofs.Effects.Rounds
import GuardElision.Proofs.Effects.Walking
import GuardElision.Proofs.Effects.Reports
import GuardElision.Proofs.Effects.Frame
import GuardElision.Proofs.Flow.Depth
import GuardElision.Proofs.Flow.Views
import GuardElision.Proofs.Placement.Position
import GuardElision.Proofs.Placement.Earliest
import GuardElision.Proofs.Facts.Nearest
import GuardElision.Proofs.Flow.Cycle
import GuardElision.Proofs.Flow.ClosedWalks
import GuardElision.Proofs.Flow.Orders
import GuardElision.Proofs.Graph.Straight
import GuardElision.Proofs.Execution.Fresh
import GuardElision.Proofs.Execution.Cache
import GuardElision.Proofs.Execution.Transparency
import GuardElision.Proofs.Execution.Visits
import GuardElision.Proofs.Builder.Memory
import GuardElision.Proofs.Builder.Epochs
import GuardElision.Proofs.Cleanup.Loops
import GuardElision.Proofs.Effects.Weight
import GuardElision.Proofs.Cleanup.Descent
import GuardElision.Proofs.Cleanup.Endless
import GuardElision.Proofs.Facts.Indexes
import GuardElision.Proofs.Graph.EdgeCalls
import GuardElision.Proofs.Graph.Symmetry
