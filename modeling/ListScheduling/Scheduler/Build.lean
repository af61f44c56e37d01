import ListScheduling.Scheduler.Propagation
import ListScheduling.Task.Graph

/-!
The construction steps of a run, in their required order.
-/
namespace ListScheduling

namespace Run

/-- The root and its ready time. -/
def rootVertex : Run (Nat × Double) := do
  let s ← get
  match s.root with
  | none => throw (.stepOutOfOrder .rootLookup s.phase)
  | some r => pure (r, ← liftStore (s.store.rootAt r))

/-- Step 1: creates the root at `time`. A second root poisons the run. -/
def insertRoot (time : Double) : Run Nat := do
  let s ← get
  if s.root.isSome && s.phase != .poisoned then
    poison
    throw .rootAlreadyInserted
  enter .insertRoot .empty
  if !time.isFinite then throw (.invalidRootTime time)
  finishStep .rootInserted do
    let r ← addVertex (.root time)
    modify fun s => { s with root := some r }
    pure r

/-- Step 2: one processor node per processor, linked from the root. The nodes are added one
at a time, so a store that runs out of room stops the step at once, however large `count`. -/
def createProcessors (count : Nat) : Run Unit := do
  enter .createProcessors .rootInserted
  if count = 0 then throw .noProcessors
  finishStep .processorsCreated do
    let (root, time) ← rootVertex
    for i in [0:count] do
      let node ← addVertex (.processor ⟨i, time, false⟩)
      addEdge .root .processor root node
      modify fun s => { s with processors := s.processors.push node }

/-- Step 3: the barriers of every task and the precedence between them. -/
def insertConstraints (g : TaskGraph) : Run Unit := do
  enter .insertConstraints .processorsCreated
  finishStep .constraintsInserted do
    let (_, time) ← rootVertex
    for _ in List.range g.size do
      let entry ← addVertex (.barrier (BarrierNode.new time))
      let exit ← addVertex (.barrier (BarrierNode.new time))
      modify fun s => { s with barriers := s.barriers.push ⟨entry, exit⟩ }
    for t in List.range g.size do
      let exit := ((← get).barriers[t]?.map (·.exit)).getD 0
      for succ in g.successors t do
        match (← get).barriers[succ]? with
        | none => throw (.task (.unknownTask succ))
        | some bs => addEdge .barrier .barrier exit bs.entry

/-- Step 4: the units of every task with barriers, cut by `split`. -/
def insertTasks (g : TaskGraph) (split : Split) : Run Unit := do
  enter .insertTasks .constraintsInserted
  finishStep .tasksInserted do
    let (_, time) ← rootVertex
    let barriers := (← get).barriers
    for (bs, t) in barriers.toList.zipIdx do
      let times := g.unitTimes split t
      if times.isEmpty then
        addEdge .barrier .barrier bs.entry bs.exit
      else
        for (x, k) in times.zipIdx do
          if !x.isValidTime then throw (.task (.invalidExecTime t k x))
          let unit ← addVertex (.unit (UnitNode.new ⟨t, k⟩ x time))
          addEdge .barrier .unit bs.entry unit
          addEdge .unit .barrier unit bs.exit

/-- Steps 1 to 4: the root at `time`, `count` processors, the barriers of `g` and its units
cut by `split`. -/
def build (time : Double) (count : Nat) (g : TaskGraph) (split : Split) : Run Unit := do
  let _ ← insertRoot time
  createProcessors count
  insertConstraints g
  insertTasks g split

/-- Links the root to the given entry barriers, in order. -/
def linkEntries (entries : List Nat) : Run Unit := do
  let (root, _) ← rootVertex
  for e in entries do
    addEdge .root .barrier root e

/-- Step 5: starts from the entry of one task, which must await no input. -/
def start (task : Nat) : Run Unit := do
  enter .start .tasksInserted
  match (← get).barriers[task]? with
  | none => throw (.task (.unknownTask task))
  | some bs => finishStep .started (linkEntries [bs.entry])

/-- Step 5: starts from the entry of every task that awaits no input, in task order. -/
def startEntries : Run Unit := do
  enter .start .tasksInserted
  let s ← get
  let entries ← s.barriers.toList.filterMapM fun bs => do
    let bar ← liftStore (s.store.barrierAt bs.entry)
    pure (if bar.waiting = 0 then some bs.entry else none)
  finishStep .started (linkEntries entries)

end Run

end ListScheduling
