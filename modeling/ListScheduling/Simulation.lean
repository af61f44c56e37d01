import ListScheduling.Scheduler.Build
import ListScheduling.Scheduler.Dispatch
import ListScheduling.Scheduler.Plan
import ListScheduling.Task.Names
import ListScheduling.Priority
import ListScheduling.Calendar.Date

/-!
Simulation of a schedule from named task specifications.
-/
namespace ListScheduling

/-- A task as the caller names it. -/
structure TaskSpec where
  name : String
  subtaskTimes : List Double
  dependencies : List String := []
  priority : Option Double := none
deriving Repr, Inhabited

/-- The settings of a simulation. -/
structure SimulationConfig where
  processors : Nat := 1
  rootTime : Double := Double.zero
  sourceTask : Option String := none
  strategy : String := "bottom_level"
  defaultPriority : Double := Double.zero
  splitSubtasks : Bool := true
  startDate : Option Date := none
deriving Repr, Inhabited

/-- One unit of a simulated schedule. -/
structure ScheduledUnit where
  taskName : String
  subtask : Nat
  processor : Nat
  ready : Double
  finish : Double
  execTime : Double
  startDate : Option Date
  endDate : Option Date
deriving Repr, Inhabited

/-- The outcome of a simulation. -/
structure SimulationResult where
  units : List ScheduledUnit
  makespan : Double
  /-- The start and finish of every task, ordered by name. -/
  taskSpans : List (String × Double × Double)
  utilization : List Double
  /-- Facts about the run, ordered by key. -/
  metadata : List (String × String)
deriving Repr, Inhabited

namespace TaskSpec

/-- A task of one unit of the given duration. -/
def whole (name : String) (duration : Double) (dependencies : List String) : TaskSpec :=
  { name, subtaskTimes := [duration], dependencies }

end TaskSpec

/-- The graph and the names of a list of specifications: every name must be new, every
dependency must name a task, and the graph must pass its checks. -/
def buildTaskGraph (specs : List TaskSpec) : Except TaskError (TaskGraph × TaskNames) := do
  let (names, g) ← specs.foldlM (fun (acc : TaskNames × TaskGraph) spec => do
      let (_, names) ← acc.1.internUnique spec.name
      pure (names, acc.2.addTask spec.subtaskTimes)) ({}, {})
  let g ← specs.zipIdx.foldlM (fun g (spec, t) =>
      spec.dependencies.foldlM (fun g dep => do g.addDependency (← names.lookup dep) t) g) g
  let _ ← g.validate
  pure (g, names)

/-- Sorts pairs keyed by name into name order. -/
def sortByName {α} (xs : List (String × α)) : List (String × α) :=
  xs.mergeSort fun a b => a.1 ≤ b.1

/-- The bottom level of every task, by name. -/
def taskBottomLevels (specs : List TaskSpec) : Except TaskError (List (String × Double)) := do
  let (g, names) ← buildTaskGraph specs
  let levels ← g.bottomLevels .subtasks
  pure (sortByName (levels.toList.zipIdx.filterMap fun (level, t) =>
    (names.resolve? t).map (·, level)))

/-- Whether unit `a` comes before or with unit `b`: by ready time in the IEEE total order, then
by processor. -/
def ScheduledUnit.precedes (a b : ScheduledUnit) : Bool :=
  a.ready.totalKey < b.ready.totalKey || (a.ready.totalKey == b.ready.totalKey && a.processor ≤ b.processor)

/-- The result of a plan, with names for task ids. -/
def SimulationResult.ofPlan (p : Plan) (names : TaskNames) (config : SimulationConfig)
    (strategy : Strategy) (stats : Stats) : SimulationResult :=
  let nameOf (t : Nat) := (names.resolve? t).getD ""
  let date (time : Double) := config.startDate.bind (·.project? time)
  let units := p.entries.toList.map fun e =>
    ScheduledUnit.mk (nameOf e.id.task) e.id.subtask e.processor e.ready e.finish e.execTime
      (date e.ready) (date e.finish)
  let spans := (List.range names.size).filterMap fun t => (p.spans[t]?).map (nameOf t, ·)
  { units := units.mergeSort ScheduledUnit.precedes
    makespan := p.makespan
    taskSpans := sortByName spans
    utilization := (List.range p.timelines.size).map p.utilization
    metadata := [
      ("algorithm", "list_scheduling"),
      ("assignments", toString stats.assignments),
      ("barriers_fired", toString stats.barriersFired),
      ("edges", toString stats.edges),
      ("processors", toString config.processors),
      ("strategy", strategy.name),
      ("vertices", toString stats.vertices)] }

/-- Simulates the schedule of the given tasks. -/
def simulate (specs : List TaskSpec) (config : SimulationConfig) :
    Except RunError SimulationResult := do
  let (g, names) ← (buildTaskGraph specs).mapError .task
  let strategy ← match Strategy.ofName? config.strategy with
    | some s => pure s
    | none => throw (.unknownStrategy config.strategy)
  let split := if config.splitSubtasks then Split.subtasks else Split.whole
  let table ← (PriorityTable.build strategy g split (specs.map (·.priority))
    config.defaultPriority).mapError .task
  let steps : Run Unit := do
    Run.build config.rootTime config.processors g split
    match config.sourceTask with
    | some name =>
      match names.lookup name with
      | .ok t => Run.start t
      | .error e => throw (.task e)
    | none => Run.startEntries
    Run.listSchedule
  let (r, s) := (steps.run).run (Scheduler.new table.priority {})
  let _ ← r
  let p ← s.plan
  pure (SimulationResult.ofPlan p names config strategy s.stats)

end ListScheduling
