import ListScheduling.Proofs.Refinement.Layout
import ListScheduling.Proofs.Scheduler.Steps

/-!
A run that renders a state of the direct scheduler.
-/
namespace ListScheduling

/-- An entry of the ready queue without its stamp: the unit's vertex and its priority. -/
def ReadyEntry.held (e : ReadyEntry) : Nat × Double := (e.vertex, e.priority)

namespace Direct

variable (P : Problem)

namespace Problem

/-- What the ready queue holds for a unit: its vertex and its priority. -/
def queueEntry (u : UnitId) : Nat × Double := (P.unitVertex u, P.priority u)

/-- The edge along which a delivery travels. -/
def edge : Event → Nat × Nat
  | .input pred t => (P.exitVertex pred, P.entryVertex t)
  | .release t k => (P.entryVertex t, P.unitVertex ⟨t, k⟩)
  | .skip t => (P.entryVertex t, P.exitVertex t)
  | .done t k => (P.unitVertex ⟨t, k⟩, P.exitVertex t)

/-- The barriers of every task, as a run records them. -/
def taskBarriers : List TaskBarriers :=
  (List.range P.size).map fun t => ⟨P.entryVertex t, P.exitVertex t⟩

end Problem

/-- The landmarks of a run are where the layout puts them, and its priorities are the
problem's. -/
structure Landmarks (s : Scheduler) : Prop where
  root : s.root = some 0
  processors : s.processors.toList = (List.range P.processors).map (· + 1)
  barriers : s.barriers.toList = P.taskBarriers
  priority : s.priority = P.priority

/-- The queue holds the units `l` in order with their priorities, every entry stamped before the
next arrival. -/
structure Queues (q : ReadyQueue SortedHeap) (l : List UnitId) : Prop where
  held : q.entries.map ReadyEntry.held = l.map P.queueEntry
  stamped : ∀ e ∈ q.entries, e.seq < q.nextSeq

/-- A run renders state `ρ` of the direct scheduler. -/
structure Renders (s : Scheduler) (ρ : State) : Prop extends Landmarks P s where
  slots : ∃ out, s.store.slots.toList = layout P ρ out
  queue : Queues P s.queue ρ.queue
  edges : s.store.EdgeBound
  room : P.nodeBase + P.totalUnits ≤ s.store.limit

section Read

variable {P} {s : Scheduler} {ρ : State}

theorem Renders.getElem? (h : Renders P s ρ) {i : Nat} {slot : Slot}
    (hi : ∀ out, (layout P ρ out)[i]? = some slot) : s.store.slots[i]? = some slot := by
  obtain ⟨out, hout⟩ := h.slots
  rw [← Array.getElem?_toList, hout, hi]

theorem Renders.entry (h : Renders P s ρ) {t : Nat} (ht : t < P.size) :
    s.store.slots[P.entryVertex t]? = some (entrySlot P ρ t) :=
  h.getElem? fun _ => layout_entry ht

theorem Renders.exit (h : Renders P s ρ) {t : Nat} (ht : t < P.size) :
    s.store.slots[P.exitVertex t]? = some (exitSlot P ρ t) :=
  h.getElem? fun _ => layout_exit ht

theorem Renders.unit (h : Renders P s ρ) {u : UnitId} (hu : P.Valid u) :
    s.store.slots[P.unitVertex u]? = some (unitSlot P ρ u) :=
  h.getElem? fun _ => layout_unit hu

theorem Renders.stamp (h : Renders P s ρ) {σ : Nat} (hσ : σ < P.processors + ρ.log.length) :
    s.store.slots[P.stampVertex σ]? = some (processorSlot P ρ σ) :=
  h.getElem? fun _ => layout_stamp hσ

theorem Renders.node (h : Renders P s ρ) {j : Nat} (hj : j < ρ.log.length) :
    s.store.slots[P.nodeBase + j]? = some (processorSlot P ρ (P.processors + j)) :=
  h.getElem? fun _ => layout_node hj

theorem Renders.root_slot (h : Renders P s ρ) : ∃ out, s.store.slots[0]? = some (rootSlot P out) := by
  obtain ⟨out, hout⟩ := h.slots
  exact ⟨out, by rw [← Array.getElem?_toList, hout, layout_zero]⟩

theorem Renders.size (h : Renders P s ρ) : s.store.size = P.nodeBase + ρ.log.length := by
  obtain ⟨out, hout⟩ := h.slots
  rw [Store.size, ← Array.length_toList, hout, length_layout]

end Read

section Awaited

variable {P} {ρ : State}

theorem sum_waiting_barriers (n : Nat) :
    ((List.range (2 * n)).map fun i => (barrierSlot P ρ i).waiting).sum =
      ∑ t ∈ Finset.range n, ((ρ.task t).remaining + (ρ.task t).pending) := by
  induction n with
  | zero => rfl
  | succ n ih =>
    have h0 : (2 * n) % 2 = 0 := by omega
    have h1 : (2 * n + 1) % 2 = 1 := by omega
    have d0 : 2 * n / 2 = n := by omega
    have d1 : (2 * n + 1) / 2 = n := by omega
    rw [show 2 * (n + 1) = 2 * n + 1 + 1 by omega, List.range_succ, List.range_succ,
      List.map_append, List.map_append, List.sum_append, List.sum_append, ih,
      Finset.sum_range_succ]
    simp only [barrierSlot, h0, h1, d0, d1, entrySlot, exitSlot, Slot.waiting, List.map_cons,
      List.map_nil, List.sum_cons, List.sum_nil, if_true, Nat.one_ne_zero, if_false]
    omega

theorem sum_waiting_layout (out : Array Nat) :
    ((layout P ρ out).map Slot.waiting).sum = weight P ρ := by
  simp only [layout, List.map_cons, List.map_append, List.sum_cons, List.sum_append,
    List.map_map]
  have hroot : (rootSlot P out).waiting = 0 := rfl
  have hproc : ∀ σ, (processorSlot P ρ σ).waiting = 0 := fun _ => rfl
  have hunit : ∀ u, (unitSlot P ρ u).waiting = 0 := fun _ => rfl
  simp only [Function.comp_def, hroot, hproc, hunit, sum_waiting_barriers]
  simp [weight]

theorem Renders.awaited {s : Scheduler} (h : Renders P s ρ) : s.store.awaited = weight P ρ := by
  obtain ⟨out, hout⟩ := h.slots
  rw [Store.awaited_eq_sum, hout, sum_waiting_layout]

end Awaited

section Update

variable {P} {s s' : Scheduler} {ρ ρ' : State}

theorem Renders.setNode (h : Renders P s ρ)
    (hm : s'.root = s.root ∧ s'.processors = s.processors ∧ s'.barriers = s.barriers ∧
      s'.priority = s.priority) {i : Nat} {n : Node}
    (hs : s'.store = s.store.setNode i n)
    (hl : ∀ out, (layout P ρ out).modify i ({ · with node := n }) = layout P ρ' out)
    (hq : Queues P s'.queue ρ'.queue) : Renders P s' ρ' where
  root := hm.1 ▸ h.root
  processors := hm.2.1 ▸ h.processors
  barriers := hm.2.2.1 ▸ h.barriers
  priority := hm.2.2.2 ▸ h.priority
  slots := by
    obtain ⟨out, hout⟩ := h.slots
    exact ⟨out, by rw [hs, Store.toList_setNode, hout, hl]⟩
  queue := hq
  edges := hs ▸ h.edges.setNode i n
  room := by rw [hs, Store.limit_setNode]; exact h.room

theorem Renders.withPhase (h : Renders P s ρ) (ph : Phase) : Renders P { s with phase := ph } ρ where
  toLandmarks := ⟨h.root, h.processors, h.barriers, h.priority⟩
  slots := h.slots
  queue := h.queue
  edges := h.edges
  room := h.room

end Update

end Direct

end ListScheduling
