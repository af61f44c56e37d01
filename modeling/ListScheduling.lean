import ListScheduling.Calendar.Date
import ListScheduling.Constraint.Journal
import ListScheduling.Constraint.Node
import ListScheduling.Constraint.Store
import ListScheduling.Decimal.Reader
import ListScheduling.Decimal.Shortest
import ListScheduling.Decimal.Text
import ListScheduling.Double.Basic
import ListScheduling.Double.Order
import ListScheduling.Priority
import ListScheduling.Proofs.Constraint.Operations
import ListScheduling.Proofs.Constraint.Store
import ListScheduling.Proofs.Direct.Firing
import ListScheduling.Proofs.Direct.Invariant
import ListScheduling.Proofs.Direct.Machine
import ListScheduling.Proofs.Direct.Times
import ListScheduling.Proofs.Double.Addition
import ListScheduling.Proofs.Double.Monotone
import ListScheduling.Proofs.Double.Order
import ListScheduling.Proofs.Queue.Heap
import ListScheduling.Proofs.Queue.Order
import ListScheduling.Proofs.Refinement.Construction
import ListScheduling.Proofs.Refinement.Dispatch
import ListScheduling.Proofs.Refinement.Drain
import ListScheduling.Proofs.Refinement.Earliest
import ListScheduling.Proofs.Refinement.Layout
import ListScheduling.Proofs.Refinement.Outcome
import ListScheduling.Proofs.Refinement.Pipeline
import ListScheduling.Proofs.Refinement.Readout
import ListScheduling.Proofs.Refinement.Relation
import ListScheduling.Proofs.Refinement.Stage
import ListScheduling.Proofs.Refinement.Start
import ListScheduling.Proofs.Refinement.Totals
import ListScheduling.Proofs.Scheduler.Counts
import ListScheduling.Proofs.Scheduler.Feeds
import ListScheduling.Proofs.Scheduler.Frame
import ListScheduling.Proofs.Scheduler.Law
import ListScheduling.Proofs.Scheduler.Onward
import ListScheduling.Proofs.Scheduler.Phases
import ListScheduling.Proofs.Scheduler.Root
import ListScheduling.Proofs.Scheduler.Run
import ListScheduling.Proofs.Scheduler.Sound
import ListScheduling.Proofs.Scheduler.Spreading
import ListScheduling.Proofs.Scheduler.Backlog
import ListScheduling.Proofs.Scheduler.Rounds
import ListScheduling.Proofs.Scheduler.Steps
import ListScheduling.Proofs.Scheduler.Times
import ListScheduling.Proofs.Scheduler.Timing
import ListScheduling.Proofs.Task.Levels
import ListScheduling.Proofs.Task.Names
import ListScheduling.Proofs.Task.Order
import ListScheduling.ReadyQueue
import ListScheduling.Scheduler.Build
import ListScheduling.Scheduler.Dispatch
import ListScheduling.Scheduler.Plan
import ListScheduling.Scheduler.Propagation
import ListScheduling.Scheduler.State
import ListScheduling.Simulation
import ListScheduling.Task.Graph
import ListScheduling.Task.Levels
import ListScheduling.Task.Names
import ListScheduling.Task.Order
import ListScheduling.Proofs.Plan.Calm
import ListScheduling.Proofs.Plan.Charting
import ListScheduling.Proofs.Plan.Walk
import ListScheduling.Proofs.Plan.Finished
import ListScheduling.Proofs.Plan.Timelines
import ListScheduling.Proofs.Scheduler.Checks
import ListScheduling.Proofs.Direct.Paths
import ListScheduling.Proofs.Plan.Precedence
import ListScheduling.Proofs.Refinement.Failures
import ListScheduling.Proofs.Simulation.Graph
import ListScheduling.Proofs.Simulation.Errors
import ListScheduling.Proofs.Simulation.Overflow
import ListScheduling.Proofs.Scheduler.Ends
import ListScheduling.Proofs.Scheduler.Inputs
import ListScheduling.Proofs.Scheduler.Balance
import ListScheduling.Proofs.Scheduler.Reactions
import ListScheduling.Proofs.Scheduler.Assembly
import ListScheduling.Proofs.Scheduler.Consistency
