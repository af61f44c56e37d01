import ListScheduling.Task.Levels

/-!
Priorities of units: a lower value is scheduled first.
-/
namespace ListScheduling

/-- The built-in ways to rank units. -/
inductive Strategy where
  | taskOrder
  | bottomLevel
  | explicit
  | longestFirst
deriving DecidableEq, Repr

namespace Strategy

/-- The name of a strategy. -/
def name : Strategy → String
  | .taskOrder => "task_order"
  | .bottomLevel => "bottom_level"
  | .explicit => "explicit"
  | .longestFirst => "longest_first"

/-- The strategy with a given name. -/
def ofName? : String → Option Strategy
  | "task_order" => some .taskOrder
  | "bottom_level" => some .bottomLevel
  | "explicit" => some .explicit
  | "longest_first" => some .longestFirst
  | _ => none

end Strategy

/-- The text of the error for a strategy name that is not built in. -/
def unknownStrategyMessage (name : String) : String := s!"Unknown priority strategy: {name}"

/-- Priorities computed once for a graph: a value per task, or, under `longestFirst`, the unit
times of every task. -/
structure PriorityTable where
  strategy : Strategy
  taskValues : Array Double
  unitTimes : Array (List Double)
deriving Repr

namespace PriorityTable

/-- Computes the table of a strategy for a graph cut into units by `split`; `explicit` gives
per-task values, missing or `none` ones replaced by `default`. -/
def build (strategy : Strategy) (g : TaskGraph) (split : Split) (explicit : List (Option Double))
    (default : Double) : Except TaskError PriorityTable :=
  let tasks := List.range g.size
  match strategy with
  | .taskOrder => .ok ⟨strategy, (tasks.map Double.ofNat).toArray, #[]⟩
  | .bottomLevel => do
    let levels ← g.bottomLevels split
    pure ⟨strategy, levels.map (- ·), #[]⟩
  | .explicit => .ok ⟨strategy, (tasks.map fun t => (explicit[t]?).join.getD default).toArray, #[]⟩
  | .longestFirst => .ok ⟨strategy, #[], (tasks.map (g.unitTimes split)).toArray⟩

/-- The priority of a unit. -/
def priority (p : PriorityTable) (id : UnitId) : Double :=
  match p.strategy with
  | .longestFirst => (((p.unitTimes[id.task]?).bind (·[id.subtask]?)).map (- ·)).getD Double.zero
  | _ => (p.taskValues[id.task]?).getD Double.inf

end PriorityTable

/-- Priorities given per task, with a default for tasks outside the list. -/
def priorityByTask (values : Array Double) (default : Double) (id : UnitId) : Double :=
  (values[id.task]?).getD default

end ListScheduling
