import ListScheduling.Decimal.Text

/-!
Task graphs: tasks made of subtasks, and the precedence between tasks.
-/
namespace ListScheduling

/-- One schedulable unit: a task and the index of a subtask within it. -/
structure UnitId where
  task : Nat
  subtask : Nat
deriving DecidableEq, Repr, Inhabited

/-- Errors found while naming, building or checking a task graph. -/
inductive TaskError where
  | circularDependency
  | unknownTask (task : Nat)
  | unknownTaskName (name : String)
  | duplicateTask (name : String)
  | invalidExecTime (task subtask : Nat) (value : Double)
deriving DecidableEq, Repr

/-- The text of a task error. -/
def TaskError.message : TaskError → String
  | .circularDependency => "Circular dependency detected in task graph"
  | .unknownTask t => s!"Unknown task: {t}"
  | .unknownTaskName n => s!"Unknown task name: {n}"
  | .duplicateTask n => s!"Duplicate task name: {n}"
  | .invalidExecTime t k v =>
    s!"Invalid execution time {Decimal.display v} for task {t} subtask {k}"

/-- A task: the execution times of its subtasks and its direct successors. -/
structure Task where
  subtaskTimes : List Double
  successors : List Nat
deriving Repr, Inhabited

/-- Tasks indexed by their ids. -/
structure TaskGraph where
  tasks : Array Task := #[]
deriving Repr, Inhabited

/-- How the tasks of a graph are cut into schedulable units. -/
inductive Split where
  /-- Each subtask is a unit of its own. -/
  | subtasks
  /-- Each task is a single unit, taking the sum of its subtask times. -/
  | whole
deriving DecidableEq, Repr

/-- An execution time is acceptable when it is a number and not negative. -/
def Double.isValidTime (x : Double) : Bool := x.isFinite && !(x.lt Double.zero)

namespace TaskGraph

/-- The number of tasks. -/
def size (g : TaskGraph) : Nat := g.tasks.size

/-- Adds a task made of the given subtasks; it gets the next id. An empty list makes a task
that takes no processor time. -/
def addTask (g : TaskGraph) (times : List Double) : TaskGraph :=
  ⟨g.tasks.push ⟨times, []⟩⟩

/-- Records that `to` may not start before `from` finishes. The successor is checked first. -/
def addDependency (g : TaskGraph) (src dst : Nat) : Except TaskError TaskGraph :=
  if dst < g.size then
    if h : src < g.size then
      let t := g.tasks[src]
      .ok ⟨g.tasks.set src { t with successors := t.successors ++ [dst] } h⟩
    else .error (.unknownTask src)
  else .error (.unknownTask dst)

/-- A graph from the subtask times of its tasks and `(from, to)` edges, added in order; the
first edge naming a missing task is the error. -/
def build (tasks : List (List Double)) (edges : List (Nat × Nat)) : Except TaskError TaskGraph :=
  let g := tasks.foldl addTask {}
  edges.foldlM (fun g (e : Nat × Nat) => g.addDependency e.1 e.2) g

/-- A graph of single-subtask tasks from their times and `(from, to)` edges. -/
def ofEdges (times : List Double) (edges : List (Nat × Nat)) : Except TaskError TaskGraph :=
  build (times.map ([·])) edges

/-- The subtask times of a task; none for an id out of range. -/
def subtaskTimes (g : TaskGraph) (t : Nat) : List Double :=
  (g.tasks[t]?.map (·.subtaskTimes)).getD []

/-- The direct successors of a task; none for an id out of range. -/
def successors (g : TaskGraph) (t : Nat) : List Nat :=
  (g.tasks[t]?.map (·.successors)).getD []

/-- The time of a task run as one unit: the sum of its subtask times, `-0.0` when it has
none. -/
def execTime (g : TaskGraph) (t : Nat) : Double := Double.listSum (g.subtaskTimes t)

/-- The unit times of a task under a split. An id out of range has no subtasks, so as a whole
task it is one unit of time `-0.0`. -/
def unitTimes (g : TaskGraph) : Split → Nat → List Double
  | .subtasks, t => g.subtaskTimes t
  | .whole, t => [g.execTime t]

/-- The first subtask time, in task then subtask order, that is not a valid time. -/
def firstInvalidTime (g : TaskGraph) : Option TaskError :=
  (List.range g.size).findSome? fun t =>
    ((g.subtaskTimes t).zipIdx.find? (fun (v, _) => !v.isValidTime)).map
      fun (v, k) => .invalidExecTime t k v

end TaskGraph

end ListScheduling
