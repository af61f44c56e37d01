import ListScheduling.Constraint.Store
import ListScheduling.ReadyQueue

/-!
The state of a scheduling run and the rules of its phases.
-/
namespace ListScheduling

/-- How far the construction of a run has come. -/
inductive Phase where
  | empty
  | rootInserted
  | processorsCreated
  | constraintsInserted
  | tasksInserted
  | started
  | done
  | poisoned
deriving DecidableEq, Repr, Inhabited

/-- The name of a phase, as messages show it. -/
def Phase.name : Phase → String
  | .empty => "Empty"
  | .rootInserted => "RootInserted"
  | .processorsCreated => "ProcessorsCreated"
  | .constraintsInserted => "ConstraintsInserted"
  | .tasksInserted => "TasksInserted"
  | .started => "Started"
  | .done => "Done"
  | .poisoned => "Poisoned"

/-- The steps of a run, as named in messages; `rootLookup` is the internal search for the
root, which fails before the root exists. -/
inductive Step where
  | insertRoot
  | createProcessors
  | insertConstraints
  | insertTasks
  | start
  | listSchedule
  | plan
  | rootLookup
deriving DecidableEq, Repr

/-- The name of a step, as messages show it. -/
def Step.name : Step → String
  | .insertRoot => "insert_root"
  | .createProcessors => "create_processors"
  | .insertConstraints => "insert_precedence_constraints"
  | .insertTasks => "insert_tasks"
  | .start => "start_scheduling"
  | .listSchedule => "list_schedule"
  | .plan => "plan"
  | .rootLookup => "root lookup"

/-- Errors that end a scheduling step. -/
inductive RunError where
  | store (e : StoreError)
  | task (e : TaskError)
  | unknownStrategy (name : String)
  | barrierUnderflow (index : Nat)
  | barrierAlreadySatisfied (index : Nat)
  | rootBarrierNotReady (index waiting : Nat)
  | processorAlreadyOccupied (index : Nat)
  | unitAlreadyScheduled (id : UnitId)
  | rootAlreadyInserted
  | stepOutOfOrder (step : Step) (phase : Phase)
  | invalidRootTime (value : Double)
  | noProcessors
  | noAvailableProcessor (id : UnitId)
  | unscheduled (ids : List UnitId)
  | poisoned
deriving DecidableEq, Repr

/-- A unit written as `task.subtask`. -/
def UnitId.dotted (id : UnitId) : String := s!"{id.task}.{id.subtask}"

/-- A unit written as a record, `ComposedId { task: 1, subtask: 0 }`. -/
def UnitId.record (id : UnitId) : String :=
  "ComposedId \x7b task: " ++ toString id.task ++ ", subtask: " ++ toString id.subtask ++ " \x7d"

/-- The text of a run error. -/
def RunError.message : RunError → String
  | .store e => e.message
  | .task e => e.message
  | .unknownStrategy name => s!"Unknown priority strategy: {name}"
  | .barrierUnderflow i => s!"Barrier {i} received more inputs than it waits on"
  | .barrierAlreadySatisfied i => s!"Barrier {i} is already satisfied"
  | .rootBarrierNotReady i n => s!"Barrier {i} linked from the root still waits on {n} inputs"
  | .processorAlreadyOccupied i => s!"Processor node {i} is already occupied"
  | .unitAlreadyScheduled id => s!"Unit {id.dotted} is already scheduled"
  | .rootAlreadyInserted => "Root vertex already inserted"
  | .stepOutOfOrder step phase => s!"Step {step.name} cannot run in phase {phase.name}"
  | .invalidRootTime v => s!"Root ready time must be finite, got {Decimal.display v}"
  | .noProcessors => "At least one processor is required"
  | .noAvailableProcessor id => s!"No available processor for ready unit {id.dotted}"
  | .unscheduled ids => "Units never became ready: [" ++ ", ".intercalate (ids.map UnitId.record) ++ "]"
  | .poisoned => "Scheduler aborted by an earlier error"

/-- Whether the error stems from the caller's input rather than from the course of the run. -/
def RunError.isInputError : RunError → Bool
  | .task _ | .unknownStrategy _ | .invalidRootTime _ | .noProcessors => true
  | _ => false

/-- The entry and exit barriers of a task. -/
structure TaskBarriers where
  entry : Nat
  exit : Nat
deriving DecidableEq, Repr, Inhabited

/-- Counts kept while a run builds and schedules its graph. -/
structure Stats where
  vertices : Nat := 0
  processorNodes : Nat := 0
  unitNodes : Nat := 0
  barrierNodes : Nat := 0
  edges : Nat := 0
  barriersFired : Nat := 0
  assignments : Nat := 0
deriving DecidableEq, Repr, Inhabited

/-- Counts one more vertex of a kind. -/
def Stats.noteVertex (st : Stats) : NodeKind → Stats
  | .root => { st with vertices := st.vertices + 1 }
  | .processor => { st with vertices := st.vertices + 1, processorNodes := st.processorNodes + 1 }
  | .unit => { st with vertices := st.vertices + 1, unitNodes := st.unitNodes + 1 }
  | .barrier => { st with vertices := st.vertices + 1, barrierNodes := st.barrierNodes + 1 }

/-- A scheduling run: its graph, phase, landmarks, ready queue, priorities and counts. -/
structure Scheduler where
  store : Store
  phase : Phase := .empty
  root : Option Nat := none
  /-- The first node of each processor. -/
  processors : Array Nat := #[]
  /-- The barriers of each task. -/
  barriers : Array TaskBarriers := #[]
  queue : ReadyQueue SortedHeap := .empty
  priority : UnitId → Double
  stats : Stats := {}

/-- A fresh run over an empty store with the given priorities. -/
def Scheduler.new (priority : UnitId → Double) (store : Store) : Scheduler :=
  { store, priority }

/-- Edits the store of a run directly: nothing reacts, nothing is counted and the phase stays;
a failed edit changes nothing. -/
def Scheduler.editStore {α} (s : Scheduler) (f : Store → Except StoreError (α × Store)) :
    Except StoreError (α × Scheduler) := do
  let (a, store) ← f s.store
  pure (a, { s with store })

/-- A step of a run: it may fail, and keeps whatever it changed before failing. -/
abbrev Run := ExceptT RunError (StateM Scheduler)

namespace Run

/-- Fails with a store error. -/
def liftStore {α} (x : Except StoreError α) : Run α :=
  match x with
  | .ok a => pure a
  | .error e => throw (.store e)

/-- Changes the store. The store is taken out of the state before `f` sees it, so that `f`
holds the only reference and may change it in place. -/
def modifyStore (f : Store → Store) : Run Unit :=
  modify fun s =>
    let store := s.store
    let s := { s with store := {} }
    { s with store := f store }

/-- Changes the counts. -/
def modifyStats (f : Stats → Stats) : Run Unit :=
  modify fun s => { s with stats := f s.stats }

/-- Marks the run as poisoned. -/
def poison : Run Unit :=
  modify fun s => { s with phase := .poisoned }

/-- Runs `x`, poisoning the run if it fails. -/
def guarded {α} (x : Run α) : Run α :=
  tryCatch x fun e => do poison; throw e

/-- Fails unless the run is in phase `expected`; a poisoned run fails with `poisoned`. -/
def enter (step : Step) (expected : Phase) : Run Unit := do
  match (← get).phase with
  | .poisoned => throw .poisoned
  | phase => if phase = expected then pure () else throw (.stepOutOfOrder step phase)

/-- Runs the body of a step: on success the run moves to `next`, on failure it is poisoned. -/
def finishStep {α} (next : Phase) (x : Run α) : Run α :=
  guarded do
    let a ← x
    modify fun s => { s with phase := next }
    pure a

end Run

end ListScheduling
