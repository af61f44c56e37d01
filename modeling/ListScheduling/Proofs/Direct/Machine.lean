import Mathlib
import ListScheduling.Constraint.Node

/-!
A direct list scheduler, kept at the level of tasks, units and processors.
-/
namespace ListScheduling.Direct

/-- What the scheduler is given: the precedence between tasks, the unit times of each task,
the priority of each unit, the number of processors and the release time. -/
structure Problem where
  graph : TaskGraph
  unitTimes : Nat → List Double
  priority : UnitId → Double
  processors : Nat
  release : Double

/-- The state of one task: what its begin and its end still wait for, their times, and
whether they fired. -/
structure TaskState where
  remaining : Nat
  beginTime : Double
  begun : Bool
  pending : Nat
  endTime : Double
  ended : Bool
deriving DecidableEq, Repr

/-- The state of one unit: its times, and its processor once placed. Until it is placed a
unit finishes when it is ready. -/
structure UnitState where
  timing : Timing
  processor : Option Nat
deriving DecidableEq, Repr

/-- A moment at which a processor becomes free, with its stamp. -/
structure Free where
  processor : Nat
  time : Double
  stamp : Nat
deriving DecidableEq, Repr

/-- One assignment, with the stamp of the free moment it took. -/
structure Placement where
  id : UnitId
  processor : Nat
  ready : Double
  finish : Double
  taken : Nat
deriving DecidableEq, Repr

/-- The scheduler's state; assignments are logged in the order they are made. -/
structure State where
  task : Nat → TaskState
  unit : UnitId → UnitState
  queue : List UnitId
  free : List Free
  log : List Placement

/-- An assignment as it is reported: the unit, its processor, and its ready and finish
times. -/
structure Assignment where
  id : UnitId
  processor : Nat
  ready : Double
  finish : Double
deriving DecidableEq, Repr

/-- The report of a placement. -/
def Placement.assignment (pl : Placement) : Assignment := ⟨pl.id, pl.processor, pl.ready, pl.finish⟩

/-- A pending delivery. -/
inductive Event where
  /-- The end of task `pred` reaches the begin of its successor `t`. -/
  | input (pred t : Nat)
  /-- The begin of task `t` releases its unit `k`. -/
  | release (t k : Nat)
  /-- The begin of task `t`, which has no units, reaches its end. -/
  | skip (t : Nat)
  /-- Unit `k` of task `t` reaches the end of its task. -/
  | done (t k : Nat)
deriving DecidableEq, Repr

namespace Problem

variable (P : Problem)

/-- The number of tasks. -/
def size : Nat := P.graph.size

/-- The number of dependencies recorded into task `t`, counted with repetition. -/
def inDegree (t : Nat) : Nat :=
  ∑ s ∈ Finset.range P.size, (P.graph.successors s).count t

/-- The number of units of a task. -/
def unitCount (t : Nat) : Nat := (P.unitTimes t).length

/-- The total number of units of all tasks. -/
def totalUnits : Nat := ((List.range P.size).map P.unitCount).sum

/-- The execution time of a unit. -/
def execTime (u : UnitId) : Double := ((P.unitTimes u.task)[u.subtask]?).getD Double.zero

/-- What firing the begin of `t` delivers: its units in subtask order, or its own end. -/
def beginEvents (t : Nat) : List Event :=
  if P.unitCount t = 0 then [.skip t] else (List.range (P.unitCount t)).map (.release t)

/-- What firing the end of `t` delivers: its successors' begins, in recorded order. -/
def endEvents (t : Nat) : List Event := (P.graph.successors t).map (.input t)

/-- Tasks whose begin waits for nothing. -/
def entries : List Nat := (List.range P.size).filter (P.inDegree · = 0)

end Problem

/-- Inserts a unit behind every unit whose priority is not greater in the total order. -/
def enqueue (priority : UnitId → Double) (u : UnitId) : List UnitId → List UnitId
  | [] => [u]
  | v :: rest =>
    if (priority u).totalKey < (priority v).totalKey then u :: v :: rest
    else v :: enqueue priority u rest

/-- The better of the best free moment so far and the next one: the earlier in the total
order, the first of equal ones. -/
def better (best : Option Free) (f : Free) : Option Free :=
  match best with
  | none => some f
  | some b => if f.time.totalKey < b.time.totalKey then some f else best

/-- The free moment with the least time in the total order, the first of equal ones. -/
def pick (free : List Free) : Option Free := free.foldl better none

namespace State

/-- Replaces the state of one task. -/
def setTask (ρ : State) (t : Nat) (ts : TaskState) : State :=
  { ρ with task := Function.update ρ.task t ts }

/-- Replaces the state of one unit. -/
def setUnit (ρ : State) (u : UnitId) (us : UnitState) : State :=
  { ρ with unit := Function.update ρ.unit u us }

end State

section Run

variable (P : Problem)

/-- Nothing has fired: every begin waits for its dependencies and every end for its units,
all at the release time; every processor is free at the release time. -/
def initial : State where
  task t := ⟨P.inDegree t, P.release, false, max (P.unitCount t) 1, P.release, false⟩
  unit _ := ⟨Timing.since P.release, none⟩
  queue := []
  free := (List.range P.processors).map fun k => ⟨k, P.release, k⟩
  log := []

/-- One input of the end of `t`, at time `f`: the end fires with the last one. -/
def finishInput (ρ : State) (t : Nat) (f : Double) : State × List Event :=
  let ts := ρ.task t
  if t < P.size ∧ 0 < ts.pending then
    let ts := { ts with pending := ts.pending - 1, endTime := Double.maxNum ts.endTime f }
    if ts.pending = 0 then (ρ.setTask t { ts with ended := true }, P.endEvents t)
    else (ρ.setTask t ts, [])
  else (ρ, [])

/-- Takes one delivery; returns the new state and the deliveries it causes, first one first.
An input that nothing waits for is dropped. -/
def step (ρ : State) : Event → State × List Event
  | .input pred t =>
    let ts := ρ.task t
    if t < P.size ∧ 0 < ts.remaining then
      let ts := { ts with
        remaining := ts.remaining - 1
        beginTime := Double.maxNum ts.beginTime (ρ.task pred).endTime }
      if ts.remaining = 0 then (ρ.setTask t { ts with begun := true }, P.beginEvents t)
      else (ρ.setTask t ts, [])
    else (ρ, [])
  | .release t k =>
    let u : UnitId := ⟨t, k⟩
    let us := ρ.unit u
    let ρ := ρ.setUnit u { us with timing := us.timing.advance (ρ.task t).beginTime }
    ({ ρ with queue := enqueue P.priority u ρ.queue }, [])
  | .skip t => finishInput P ρ t (ρ.task t).beginTime
  | .done t k => finishInput P ρ t (ρ.unit ⟨t, k⟩).timing.finish

/-- What the begins and ends still wait for, in all. -/
def weight (ρ : State) : Nat :=
  ∑ t ∈ Finset.range P.size, ((ρ.task t).remaining + (ρ.task t).pending)

theorem weight_setTask_lt {ρ : State} {t : Nat} {ts : TaskState} (ht : t < P.size)
    (h : ts.remaining + ts.pending < (ρ.task t).remaining + (ρ.task t).pending) :
    weight P (ρ.setTask t ts) < weight P ρ := by
  refine Finset.sum_lt_sum (fun i _ => ?_) ⟨t, Finset.mem_range.2 ht, ?_⟩
  · by_cases hi : i = t
    · subst hi
      simp only [State.setTask, Function.update_self]
      exact Nat.le_of_lt h
    · simp only [State.setTask, Function.update_of_ne hi, Nat.le_refl]
  · simpa only [State.setTask, Function.update_self] using h

/-- Each delivery either lowers the weight, or keeps it and causes nothing. -/
theorem step_weight (ρ : State) (ev : Event) :
    weight P (step P ρ ev).1 < weight P ρ ∨
      weight P (step P ρ ev).1 = weight P ρ ∧ (step P ρ ev).2 = [] := by
  have hfin : ∀ t f, weight P (finishInput P ρ t f).1 < weight P ρ ∨
      weight P (finishInput P ρ t f).1 = weight P ρ ∧ (finishInput P ρ t f).2 = [] := by
    intro t f
    unfold finishInput
    dsimp only
    split
    · rename_i h
      left
      split <;> exact weight_setTask_lt P h.1 (by simp only; omega)
    · exact .inr ⟨rfl, rfl⟩
  cases ev with
  | input pred t =>
    simp only [step]
    split
    · rename_i h
      left
      split <;> exact weight_setTask_lt P h.1 (by simp only; omega)
    · exact .inr ⟨rfl, rfl⟩
  | release t k => exact .inr ⟨rfl, rfl⟩
  | skip t => exact hfin _ _
  | done t k => exact hfin _ _

/-- Takes deliveries until none is left. -/
def drain (ρ : State) : List Event → State
  | [] => ρ
  | ev :: rest => drain (step P ρ ev).1 ((step P ρ ev).2 ++ rest)
termination_by stack => (weight P ρ, stack.length)
decreasing_by
  rcases step_weight P ρ ev with h | ⟨h, hn⟩
  · exact Prod.Lex.left _ _ h
  · rw [hn, List.nil_append, h]
    exact Prod.Lex.right _ (Nat.lt_succ_self _)

/-- Whether a delivery releases a unit. -/
def Event.isRelease : Event → Bool
  | .release _ _ => true
  | _ => false

/-- A bound on the rounds of assignment still to come: every unit in the queue or on its way to
it, and for every input still awaited as many units as there are in all. -/
def cost (ρ : State) (stack : List Event) : Nat :=
  weight P ρ * (P.totalUnits + 1) + ρ.queue.length + stack.countP Event.isRelease

theorem unitCount_le_totalUnits {t : Nat} (ht : t < P.size) : P.unitCount t ≤ P.totalUnits :=
  List.le_sum_of_mem (List.mem_map.2 ⟨t, List.mem_range.2 ht, rfl⟩)

theorem length_enqueue (priority : UnitId → Double) (u : UnitId) (q : List UnitId) :
    (enqueue priority u q).length = q.length + 1 := by
  induction q with
  | nil => rfl
  | cons v rest ih =>
    simp only [enqueue]
    split
    · rfl
    · simp only [List.length_cons, ih]

theorem countP_beginEvents (t : Nat) :
    (P.beginEvents t).countP Event.isRelease ≤ P.unitCount t := by
  unfold Problem.beginEvents
  split
  · simp [Event.isRelease]
  · rw [List.countP_map]
    exact Nat.le_trans (List.countP_le_length) (by simp)

theorem countP_endEvents (t : Nat) : (P.endEvents t).countP Event.isRelease = 0 := by
  simp [Problem.endEvents, List.countP_map, Event.isRelease]

theorem cost_setTask_le {ρ : State} {t : Nat} {ts : TaskState} (ht : t < P.size)
    (h : ts.remaining + ts.pending < (ρ.task t).remaining + (ρ.task t).pending)
    {ev : Event} {next rest : List Event} (hn : next.countP Event.isRelease ≤ P.totalUnits)
    (hev : ev.isRelease = false) :
    cost P (ρ.setTask t ts) (next ++ rest) ≤ cost P ρ (ev :: rest) := by
  have hw := weight_setTask_lt P ht h
  have hmul := Nat.mul_le_mul_right (P.totalUnits + 1) (Nat.succ_le_of_lt hw)
  rw [Nat.succ_mul] at hmul
  have hq : (ρ.setTask t ts).queue = ρ.queue := rfl
  simp only [cost, List.countP_append, List.countP_cons, hev, hq, Bool.false_eq_true,
    if_false]
  omega

theorem cost_cons_le {ρ : State} {ev : Event} {rest : List Event} (hev : ev.isRelease = false) :
    cost P ρ ([] ++ rest) ≤ cost P ρ (ev :: rest) := by
  simp only [cost, List.nil_append, List.countP_cons, hev, Bool.false_eq_true, if_false]
  omega

/-- No delivery raises the cost: a begin that fires lowers the weight, which pays for the units
it releases. -/
theorem cost_step (ρ : State) (ev : Event) (rest : List Event) :
    cost P (step P ρ ev).1 ((step P ρ ev).2 ++ rest) ≤ cost P ρ (ev :: rest) := by
  have hfin : ∀ t f, ev.isRelease = false →
      cost P (finishInput P ρ t f).1 ((finishInput P ρ t f).2 ++ rest) ≤ cost P ρ (ev :: rest) := by
    intro t f hev
    unfold finishInput
    dsimp only
    split
    · rename_i h
      split
      · exact cost_setTask_le P h.1 (by simp only; omega)
          (by rw [countP_endEvents]; exact Nat.zero_le _) hev
      · exact cost_setTask_le P h.1 (by simp only; omega) (by simp) hev
    · exact cost_cons_le P hev
  cases ev with
  | input pred t =>
    simp only [step]
    split
    · rename_i h
      split
      · exact cost_setTask_le P h.1 (by simp only; omega)
          (Nat.le_trans (countP_beginEvents P t) (unitCount_le_totalUnits P h.1)) rfl
      · exact cost_setTask_le P h.1 (by simp only; omega) (by simp) rfl
    · exact cost_cons_le P rfl
  | release t k =>
    simp only [step, cost, List.nil_append, List.countP_cons, Event.isRelease, length_enqueue,
      if_true]
    rw [show ∀ ρ' : State, ρ'.task = ρ.task → weight P ρ' = weight P ρ from
      fun _ h => by simp only [weight, h]]
    · simp only [State.setUnit]
      omega
    · rfl
  | skip t => exact hfin _ _ rfl
  | done t k => exact hfin _ _ rfl

theorem cost_drain (ρ : State) (stack : List Event) :
    cost P (drain P ρ stack) [] ≤ cost P ρ stack := by
  induction ρ, stack using drain.induct P with
  | case1 ρ => rw [drain]
  | case2 ρ ev rest ih =>
    rw [drain]
    exact Nat.le_trans ih (cost_step P ρ ev rest)

/-- Places unit `u` at the free moment `f`; the processor's next free moment is the unit's finish.
-/
def assign (ρ : State) (u : UnitId) (f : Free) : State :=
  let ready := Double.maxNum (ρ.unit u).timing.ready f.time
  let finish := ready + P.execTime u
  { ρ.setUnit u ⟨⟨ready, finish⟩, some f.processor⟩ with
    free := ρ.free.filter (·.stamp ≠ f.stamp) ++ [⟨f.processor, finish, P.processors + ρ.log.length⟩]
    log := ρ.log ++ [⟨u, f.processor, ready, finish, f.stamp⟩] }

/-- Assigns the unit at the head of the queue, lets its finish propagate, and repeats until the
queue is empty. -/
def dispatch (ρ : State) : State :=
  match hq : ρ.queue with
  | [] => ρ
  | u :: rest =>
    match pick ρ.free with
    | none => ρ
    | some f => dispatch (drain P (assign P { ρ with queue := rest } u f) [.done u.task u.subtask])
termination_by cost P ρ []
decreasing_by
  refine Nat.lt_of_le_of_lt (cost_drain P _ _) ?_
  have hw : weight P (assign P { ρ with queue := rest } u f) = weight P ρ := rfl
  have hr : (assign P { ρ with queue := rest } u f).queue = rest := rfl
  simp only [cost, hw, hr, hq, List.length_cons, List.countP_cons, List.countP_nil,
    Event.isRelease, Bool.false_eq_true, if_false]
  omega

section Equations

variable {P} {ρ : State} {u : UnitId} {rest : List UnitId}

theorem dispatch_of_queue_nil (h : ρ.queue = []) : dispatch P ρ = ρ := by
  rw [dispatch.eq_def]
  split
  · rfl
  · simp_all

theorem dispatch_of_pick_none (hf : pick ρ.free = none) : dispatch P ρ = ρ := by
  rw [dispatch.eq_def]
  split
  · rfl
  · simp_all

theorem dispatch_of_pick_some (h : ρ.queue = u :: rest) {f : Free} (hf : pick ρ.free = some f) :
    dispatch P ρ =
      dispatch P (drain P (assign P { ρ with queue := rest } u f) [.done u.task u.subtask]) := by
  rw [dispatch.eq_def]
  split
  · simp_all
  · rename_i u' rest' hq
    rw [h] at hq
    cases hq
    simp only [hf]

end Equations

/-- Fires the begin of `t` from the release time, unless it fired already or still waits. -/
def start (ρ : State) (t : Nat) : State :=
  let ts := ρ.task t
  if t < P.size ∧ ts.begun = false ∧ ts.remaining = 0 then
    drain P (ρ.setTask t { ts with beginTime := Double.maxNum ts.beginTime P.release, begun := true })
      (P.beginEvents t)
  else ρ

/-- A whole run: the begins of `linked` fire from the release time, in order, and the queued
units are then assigned until none is left. -/
def schedule (linked : List Nat) : State :=
  dispatch P (linked.foldl (start P) (initial P))

end Run

end ListScheduling.Direct
