import ListScheduling.Scheduler.State

/-!
How a run reacts to new vertices and edges.
-/
namespace ListScheduling

/-- The number of inputs that all barriers still await. -/
def Store.awaited (st : Store) : Nat :=
  st.slots.foldl (fun n slot => match slot.node with
    | .barrier b => n + b.waiting
    | _ => n) 0

namespace Run

/-- Adds a vertex and counts it; a full store poisons the run. The new vertex is the last one,
so its index is read after the append and nothing holds the old store while it grows. -/
def addVertex (n : Node) : Run Nat :=
  guarded do
    liftStore (← get).store.checkRoom
    modifyStore (·.append n)
    modifyStats (·.noteVertex n.kind)
    pure ((← get).store.size - 1)

/-- Records an edge and counts it, without reacting to it. -/
def recordEdge (fk tk : NodeKind) (src dst : Nat) : Run Unit := do
  liftStore ((← get).store.checkEdge fk tk src dst)
  modifyStore (·.appendEdge src dst)
  modifyStats fun st => { st with edges := st.edges + 1 }

/-- The edges leaving a vertex of kind `k`, first edge first. -/
def outEdges (k : NodeKind) (i : Nat) : Run (List (Nat × Nat)) := do
  let st := (← get).store
  let _ ← liftStore (st.expect i k)
  let out ← liftStore (st.outgoing i)
  pure (out.toList.map (i, ·))

/-- One more input awaited by a barrier that is not yet satisfied; the count wraps as a 32-bit
counter. -/
def registerInput (b : Nat) : Run Unit := do
  let bar ← liftStore ((← get).store.barrierAt b)
  if bar.satisfied then throw (.barrierAlreadySatisfied b)
  modifyStore (·.setNode b (.barrier bar.addInput))

/-- An input of barrier `b` finished at the source's finish time. The barrier fires when it was
the last awaited input; then its edges are returned, to be stacked. -/
def satisfyInput (a b : Nat) : Run (List (Nat × Nat)) := do
  let st := (← get).store
  let finish := (← liftStore (st.get a)).finishTime
  let bar ← liftStore (st.barrierAt b)
  if bar.waiting = 0 then throw (.barrierUnderflow b)
  let bar := { bar with waiting := bar.waiting - 1, timing := bar.timing.advance finish }
  if 0 < bar.waiting then
    modifyStore (·.setNode b (.barrier bar))
    pure []
  else
    modifyStore (·.setNode b (.barrier bar.fire))
    modifyStats fun st => { st with barriersFired := st.barriersFired + 1 }
    outEdges .barrier b

/-- Barrier `a` fired: unit `b` may start at its finish time, and joins the ready queue. -/
def releaseUnit (a b : Nat) : Run Unit := do
  let st := (← get).store
  let finish := (← liftStore (st.barrierAt a)).timing.finish
  let unit ← liftStore (st.unitAt b)
  let unit := { unit with timing := unit.timing.advance finish }
  modifyStore (·.setNode b (.unit unit))
  modify fun s => { s with queue := s.queue.push b (s.priority unit.id) }

/-- Passes the source's finish time along one edge; returns the edges to stack next. -/
def propagate (a b : Nat) : Run (List (Nat × Nat)) := do
  let st := (← get).store
  match ← liftStore (st.kindAt a), ← liftStore (st.kindAt b) with
  | .barrier, .barrier | .unit, .barrier => satisfyInput a b
  | .barrier, .unit => do releaseUnit a b; pure []
  | _, _ => pure []

/-- Takes edges from the stack, top first, until it is empty or `fuel` steps are done. -/
def drainWith : Nat → List (Nat × Nat) → Run Unit
  | 0, _ => pure ()
  | _, [] => pure ()
  | fuel + 1, (a, b) :: rest => do
    let next ← propagate a b
    drainWith fuel (next ++ rest)

/-- Spreads readiness from a stack of edges until the stack is empty. -/
def drain (stack : List (Nat × Nat)) : Run Unit := do
  let st := (← get).store
  drainWith (stack.length + st.awaited * st.numEdges + 1) stack

/-- The root is linked to barrier `b`: the barrier fires at the root's time, then readiness
spreads from it. -/
def releaseFromRoot (r b : Nat) : Run Unit := do
  let st := (← get).store
  let rootTime ← liftStore (st.rootAt r)
  let bar ← liftStore (st.barrierAt b)
  if bar.satisfied then throw (.barrierAlreadySatisfied b)
  if 0 < bar.waiting then throw (.rootBarrierNotReady b bar.waiting)
  modifyStore (·.setNode b (.barrier { bar with timing := bar.timing.advance rootTime }.fire))
  modifyStats fun st => { st with barriersFired := st.barriersFired + 1 }
  drain (← outEdges .barrier b)

/-- Adds an edge that only records order, from a unit to the processor node that follows it. -/
def addOrderEdge (fk tk : NodeKind) (src dst : Nat) : Run Unit :=
  guarded (recordEdge fk tk src dst)

/-- Processor node `p` takes unit `u`. -/
def assign (p u : Nat) : Run Unit := do
  let node ← liftStore ((← get).store.processorAt p)
  if node.occupied then throw (.processorAlreadyOccupied p)
  modifyStore (·.setNode p (.processor { node with occupied := true }))
  let unit ← liftStore ((← get).store.unitAt u)
  if unit.isScheduled then throw (.unitAlreadyScheduled unit.id)
  let timing := unit.timing.advance node.ready
  let finish := unit.execTime + timing.ready
  modifyStore (·.setNode u (.unit { unit with
    timing := { timing with finish }, processor := some node.processor }))
  modifyStats fun st => { st with assignments := st.assignments + 1 }
  let next ← addVertex (.processor ⟨node.processor, finish, false⟩)
  addOrderEdge .unit .processor u next
  drain (← outEdges .unit u)

/-- The reaction to a recorded edge between vertices of the given kinds. -/
def react (fk tk : NodeKind) (src dst : Nat) : Run Unit :=
  match fk, tk with
  | .barrier, .barrier | .unit, .barrier => registerInput dst
  | .root, .barrier => releaseFromRoot src dst
  | .processor, .unit => assign src dst
  | _, _ => pure ()

/-- Adds an edge between vertices of the given kinds and reacts to it; any failure poisons the
run. -/
def addEdge (fk tk : NodeKind) (src dst : Nat) : Run Unit :=
  guarded do
    recordEdge fk tk src dst
    react fk tk src dst

end Run

end ListScheduling
