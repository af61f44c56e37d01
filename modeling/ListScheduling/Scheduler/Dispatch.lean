import ListScheduling.Scheduler.Propagation

/-!
List scheduling: ready units go, lowest priority first, to the processor that is free earliest.
-/
namespace ListScheduling

/-- Keeps the better of the free processor node seen so far and the slot at index `i`: the
one with the smaller ready time in the total order, the earlier one among equals. -/
def Store.preferFree (best : Option (Nat × Double)) (i : Nat) (slot : Slot) : Option (Nat × Double) :=
  match slot.node with
  | .processor p =>
    if p.occupied then best
    else match best with
      | some (_, r) => if p.ready.totalKey < r.totalKey then some (i, p.ready) else best
      | none => some (i, p.ready)
  | _ => best

/-- The free processor node with the least ready time, the oldest among equals. -/
def Store.earliestFree (st : Store) : Option Nat :=
  let (best, _) := st.slots.foldl (fun (acc : Option (Nat × Double) × Nat) slot =>
    (Store.preferFree acc.1 acc.2 slot, acc.2 + 1)) (none, 0)
  best.map (·.1)

/-- The units not yet assigned, in vertex order. -/
def Store.unassigned (st : Store) : List UnitId :=
  st.slots.toList.filterMap fun slot =>
    match slot.node with
    | .unit u => if u.isScheduled then none else some u.id
    | _ => none

namespace Run

/-- Assigns ready units until the queue is empty, for at most `fuel` rounds. -/
def dispatchWith : Nat → Run Unit
  | 0 => pure ()
  | fuel + 1 => do
    let s ← get
    match s.queue.pop? with
    | none => pure ()
    | some (u, queue) =>
      set { s with queue }
      match s.store.earliestFree with
      | none =>
        let unit ← liftStore (s.store.unitAt u)
        throw (.noAvailableProcessor unit.id)
      | some p =>
        addEdge .processor .unit p u
        dispatchWith fuel

/-- Step 6: assigns every ready unit, and fails if some unit never became ready. -/
def listSchedule : Run Unit := do
  enter .listSchedule .started
  finishStep .done do
    dispatchWith ((← get).store.size + 1)
    let left := (← get).store.unassigned
    if !left.isEmpty then throw (.unscheduled left)

end Run

end ListScheduling
