import ListScheduling.Scheduler.State
import ListScheduling.Double.Order

/-!
The plan read off a finished run.
-/
namespace ListScheduling

/-- One scheduled unit of a plan. -/
structure PlanEntry where
  vertex : Nat
  id : UnitId
  processor : Nat
  ready : Double
  finish : Double
  execTime : Double
deriving DecidableEq, Repr, Inhabited

/-- The read-out of a finished run. -/
structure Plan where
  entries : Array PlanEntry
  /-- The entries of each processor's units, by position in `entries`, in the order they ran. -/
  timelines : Array (List Nat)
  /-- The start and finish of each task. -/
  spans : Array (Double × Double)
  startTime : Double
deriving Repr, Inhabited

namespace Plan

/-- The entry of a unit; of two entries for one unit, the later one. -/
def entry? (p : Plan) (id : UnitId) : Option PlanEntry :=
  p.entries.toList.reverse.find? (·.id == id)

/-- The entries of a processor's timeline, in order; none for a processor out of range. -/
def timeline (p : Plan) (k : Nat) : List PlanEntry :=
  ((p.timelines[k]?).getD []).filterMap (p.entries[·]?)

/-- The time from the root's time to the latest finish of any task. -/
def makespan (p : Plan) : Double :=
  p.spans.foldl (fun m span => Double.maxNum m span.2) p.startTime - p.startTime

/-- The total execution time of a processor's units. -/
def busyTime (p : Plan) (k : Nat) : Double :=
  Double.listSum ((p.timeline k).map (·.execTime))

/-- The share of the makespan a processor was busy, or `0.0` when the makespan is not
positive. -/
def utilization (p : Plan) (k : Nat) : Double :=
  let m := p.makespan
  if m.le Double.zero then Double.zero else p.busyTime k / m

end Plan

namespace Store

/-- The last edge of vertex `i` into a vertex of kind `k`. -/
def lastEdgeInto (st : Store) (i : Nat) (k : NodeKind) : Option Nat :=
  ((st.slots[i]?.map (·.out.toList)).getD []).reverse.find? fun j =>
    match st.slots[j]? with
    | some slot => slot.node.kind == k
    | none => false

/-- The units served along a chain of processor nodes from `node`, for at most `fuel` nodes. -/
def walkFrom (st : Store) : Nat → Nat → Except StoreError (List Nat)
  | 0, _ => .ok []
  | fuel + 1, node => do
    let p ← st.processorAt node
    if !p.occupied then return []
    match st.lastEdgeInto node .unit with
    | none => return []
    | some u =>
      match st.lastEdgeInto u .processor with
      | none => return [u]
      | some next => return u :: (← st.walkFrom fuel next)

/-- The earliest ready time among the units an entry barrier leads to, `+∞` when there are
none. -/
def earliestUnitStart (st : Store) (entry : Nat) : Double :=
  ((st.slots[entry]?.map (·.out.toList)).getD []).foldl (fun (m : Double) (j : Nat) =>
    match (st.slots[j]?).map Slot.node with
    | some (Node.unit u) => Double.minNum m u.timing.ready
    | _ => m) Double.inf

end Store

/-- Reads the plan off a finished run; a unit never assigned is an error. -/
def Scheduler.plan (s : Scheduler) : Except RunError Plan := do
  match s.phase with
  | .poisoned => throw .poisoned
  | .done => pure ()
  | phase => throw (.stepOutOfOrder .plan phase)
  let lift {α} (x : Except StoreError α) : Except RunError α := x.mapError .store
  let st := s.store
  let startTime ← match s.root with
    | some r => (·.finishTime) <$> lift (st.get r)
    | none => pure Double.zero
  let entries ← (st.slots.toList.zipIdx.filterMap fun (slot, v) =>
      match slot.node with
      | .unit u => some (v, u)
      | _ => none).mapM fun (v, u) =>
    match u.processor with
    | none => throw (.unscheduled [u.id])
    | some k => pure (PlanEntry.mk v u.id k u.timing.ready u.timing.finish u.execTime)
  let position := entries.zipIdx.foldl (fun (pos : Array Nat) (e, i) => pos.set! e.vertex i)
    (Array.replicate st.size 0)
  let timelines ← s.processors.toList.mapM fun first => do
    let units ← lift (st.walkFrom (st.size + 1) first)
    pure (units.map (position[·]?.getD 0))
  let spans ← s.barriers.toList.mapM fun bs => do
    let entry ← lift (st.barrierAt bs.entry)
    let exit ← lift (st.barrierAt bs.exit)
    let early := st.earliestUnitStart bs.entry
    let start := if early.numEq Double.inf then entry.timing.finish else early
    pure (start, exit.timing.finish)
  pure ⟨entries.toArray, timelines.toArray, spans.toArray, startTime⟩

end ListScheduling
