import ListScheduling.Task.Order
import ListScheduling.Double.Order

/-!
Bottom levels: the length of the longest chain of work from a task to the end of the graph.
-/
namespace ListScheduling

namespace TaskGraph

/-- The weight of a task under a split: its longest unit time, at least `0.0`. -/
def weight (g : TaskGraph) (split : Split) (t : Nat) : Double :=
  (g.unitTimes split t).foldl Double.maxNum Double.zero

/-- Sets the level of task `t` from the levels of its successors. -/
def fillLevel (g : TaskGraph) (split : Split) (levels : Array Double) (t : Nat) : Array Double :=
  let tail := (g.successors t).foldl (fun m s => Double.maxNum m (levels[s]?.getD Double.zero))
    Double.zero
  levels.set! t (g.weight split t + tail)

/-- The bottom level of every task, by task id. -/
def bottomLevels (g : TaskGraph) (split : Split) : Except TaskError (Array Double) := do
  let order ← g.topologicalOrder
  pure (order.reverse.foldl (g.fillLevel split) (Array.replicate g.size Double.zero))

end TaskGraph

end ListScheduling
