import ListScheduling.Task.Graph
import ListScheduling.Double.Order

/-!
The vertices of a constraint graph.
-/
namespace ListScheduling

/-- The kind of a vertex. -/
inductive NodeKind where
  | root
  | processor
  | unit
  | barrier
deriving DecidableEq, Repr, Inhabited

/-- The name of a vertex kind, as messages show it. -/
def NodeKind.name : NodeKind → String
  | .root => "Root"
  | .processor => "ProcessorReady"
  | .unit => "ExecuteTask"
  | .barrier => "ExecutionBarrier"

/-- The earliest start and the finish of a unit or barrier. -/
structure Timing where
  ready : Double
  finish : Double
deriving DecidableEq, Repr, Inhabited

namespace Timing

/-- Ready and finished at the same moment. -/
def since (t : Double) : Timing := ⟨t, t⟩

/-- Raises the ready time to at least `t`, and the finish time to at least the new ready time. -/
def advance (tm : Timing) (t : Double) : Timing :=
  let ready := Double.maxNum tm.ready t
  ⟨ready, Double.maxNum tm.finish ready⟩

end Timing

/-- A moment at which a processor becomes free. -/
structure ProcessorNode where
  processor : Nat
  ready : Double
  occupied : Bool := false
deriving DecidableEq, Repr, Inhabited

/-- One subtask to be run. -/
structure UnitNode where
  id : UnitId
  execTime : Double
  timing : Timing
  processor : Option Nat := none
deriving DecidableEq, Repr, Inhabited

/-- A join of precedence inputs. -/
structure BarrierNode where
  waiting : Nat := 0
  timing : Timing
  satisfied : Bool := false
deriving DecidableEq, Repr, Inhabited

namespace UnitNode

/-- A new unit, ready and finished at `t`, not yet placed. -/
def new (id : UnitId) (execTime t : Double) : UnitNode := ⟨id, execTime, Timing.since t, none⟩

/-- Whether the unit has been placed on a processor. -/
def isScheduled (u : UnitNode) : Bool := u.processor.isSome

end UnitNode

namespace BarrierNode

/-- A new barrier at time `t`, waiting on nothing yet. -/
def new (t : Double) : BarrierNode := ⟨0, Timing.since t, false⟩

/-- Input counts are 32-bit words, so they are kept below `2 ^ 32`. -/
def inputLimit : Nat := Nat.pow 2 32

/-- One more awaited input. The count wraps at `inputLimit`, as a 32-bit counter does: a barrier
already awaiting `2 ^ 32 - 1` inputs then awaits none. -/
def addInput (b : BarrierNode) : BarrierNode := { b with waiting := (b.waiting + 1) % inputLimit }

/-- Fires the barrier: it finishes when it is ready, and is satisfied from now on. -/
def fire (b : BarrierNode) : BarrierNode :=
  { b with timing := { b.timing with finish := b.timing.ready }, satisfied := true }

end BarrierNode

/-- A vertex of the constraint graph. -/
inductive Node where
  | root (ready : Double)
  | processor (p : ProcessorNode)
  | unit (u : UnitNode)
  | barrier (b : BarrierNode)
deriving DecidableEq, Repr, Inhabited

namespace Node

/-- The kind of a vertex. -/
def kind : Node → NodeKind
  | .root _ => .root
  | .processor _ => .processor
  | .unit _ => .unit
  | .barrier _ => .barrier

/-- When a vertex is done: the ready time of a root or processor node, the finish time of a unit
or barrier. -/
def finishTime : Node → Double
  | .root t => t
  | .processor p => p.ready
  | .unit u => u.timing.finish
  | .barrier b => b.timing.finish

end Node

end ListScheduling
