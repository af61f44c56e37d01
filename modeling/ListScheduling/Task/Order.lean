import ListScheduling.Task.Graph

/-!
Topological order of a task graph, by releasing tasks whose predecessors are all done.
-/
namespace ListScheduling

/-- Progress of the release loop: remaining in-degrees, released tasks waiting to be placed,
first in front, and the order placed so far. -/
structure Release where
  degrees : Array Nat
  waiting : List Nat
  order : Array Nat

namespace Release

/-- Takes one successor's degree away, releasing it when none is left. -/
def drop (r : Release) (s : Nat) : Release :=
  let d := r.degrees[s]?.getD 0 - 1
  { r with
    degrees := r.degrees.set! s d
    waiting := if d = 0 then r.waiting ++ [s] else r.waiting }

/-- Places the first waiting task and drops one degree from each of its successors. -/
def step (g : TaskGraph) (r : Release) : Release :=
  match r.waiting with
  | [] => r
  | t :: rest => (g.successors t).foldl drop { r with waiting := rest, order := r.order.push t }

end Release

namespace TaskGraph

/-- The in-degree of every task, or the first successor out of range. -/
def inDegrees (g : TaskGraph) : Except TaskError (Array Nat) :=
  (List.range g.size).foldlM
    (fun deg t => (g.successors t).foldlM
      (fun deg s => if s < deg.size then .ok (deg.modify s (· + 1)) else .error (.unknownTask s))
      deg)
    (Array.replicate g.size 0)

/-- The order in which the release loop places the tasks, or `circularDependency` when some task
is never released. -/
def topologicalOrder (g : TaskGraph) : Except TaskError (List Nat) := do
  let degrees ← g.inDegrees
  let start : Release := ⟨degrees, (List.range g.size).filter (degrees[·]? == some 0), #[]⟩
  let final := (List.range g.size).foldl (fun r _ => Release.step g r) start
  if final.order.size = g.size then pure final.order.toList else throw .circularDependency

/-- Checks every execution time, in task then subtask order, and then returns the topological
order. -/
def validate (g : TaskGraph) : Except TaskError (List Nat) :=
  match g.firstInvalidTime with
  | some e => .error e
  | none => g.topologicalOrder

end TaskGraph

end ListScheduling
