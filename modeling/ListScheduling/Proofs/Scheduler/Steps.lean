import ListScheduling.Proofs.Scheduler.Run
import ListScheduling.Proofs.Constraint.Store
import ListScheduling.Scheduler.Build
import ListScheduling.Scheduler.Dispatch

/-!
What each step of a run does, when the vertices it reads are known.
-/
namespace ListScheduling

/-- The inputs a vertex awaits: a barrier's count, none for the other kinds. -/
def Slot.waiting (slot : Slot) : Nat :=
  match slot.node with
  | .barrier b => b.waiting
  | _ => 0

theorem Store.awaited_eq_sum (st : Store) : st.awaited = (st.slots.toList.map Slot.waiting).sum := by
  rw [Store.awaited, ← Array.foldl_toList]
  suffices h : ∀ (l : List Slot) (n : Nat), l.foldl (fun n slot => match slot.node with
      | .barrier b => n + b.waiting
      | _ => n) n = n + (l.map Slot.waiting).sum from
    (h _ 0).trans (Nat.zero_add _)
  intro l
  induction l with
  | nil => simp
  | cons slot l ih =>
    intro n
    rw [List.foldl_cons, ih, List.map_cons, List.sum_cons, Slot.waiting]
    split <;> omega

end ListScheduling

namespace ListScheduling.Run

variable {s : Scheduler}

theorem run_guarded_congr {α : Type} {x y : Run α} {s' : Scheduler}
    (h : x.run.run s = y.run.run s') : (guarded x).run.run s = (guarded y).run.run s' := by
  rcases hy : y.run.run s' with ⟨r, s''⟩
  cases r with
  | ok a => rw [run_guarded_ok (h.trans hy), run_guarded_ok hy]
  | error e => rw [run_guarded_error (h.trans hy), run_guarded_error hy]

section Vertices

theorem run_addVertex (n : Node) (h : s.store.size < s.store.limit) :
    (addVertex n).run.run s =
      (.ok s.store.size, { s with store := s.store.append n, stats := s.stats.noteVertex n.kind }) := by
  have hroom : s.store.checkRoom = .ok () := by simp [Store.checkRoom, Nat.not_le.2 h]
  refine run_guarded_ok ?_
  simp only [run_get_bind, hroom, run_liftStore_ok_bind, run_modifyStore_bind,
    run_modifyStats_bind, run_pure, Store.size_append, Nat.add_sub_cancel]

theorem run_addVertex_full (n : Node) (h : s.store.limit ≤ s.store.size) :
    (addVertex n).run.run s =
      (.error (.store (.overflow s.store.limit)), { s with phase := .poisoned }) := by
  have hfull : s.store.checkRoom = .error (.overflow s.store.limit) := by simp [Store.checkRoom, h]
  refine run_guarded_error ?_
  simp only [run_get_bind, hfull, run_liftStore_error_bind]

end Vertices

section Edges

variable {fk tk : NodeKind} {src dst : Nat}

theorem run_recordEdge (h : s.store.checkEdge fk tk src dst = .ok ()) :
    (recordEdge fk tk src dst).run.run s = (.ok (),
      { s with store := s.store.appendEdge src dst, stats.edges := s.stats.edges + 1 }) := by
  simp only [recordEdge, run_get_bind, h, run_liftStore_ok_bind, run_modifyStore_bind,
    run_modifyStats]

theorem run_outEdges {k : NodeKind} {i : Nat} (slot : Slot) (h : s.store.slots[i]? = some slot)
    (hk : slot.node.kind = k) :
    (outEdges k i).run.run s = (.ok (slot.out.toList.map (i, ·)), s) := by
  simp only [outEdges, run_get_bind, Store.expect_eq h hk, Store.outgoing_eq h,
    run_liftStore_ok_bind, run_pure]

theorem run_addEdge (h : s.store.checkEdge fk tk src dst = .ok ()) :
    (addEdge fk tk src dst).run.run s = (guarded (react fk tk src dst)).run.run
      { s with store := s.store.appendEdge src dst, stats.edges := s.stats.edges + 1 } :=
  run_guarded_congr (run_bind_ok (run_recordEdge h))

end Edges

section Barriers

variable {a b : Nat} {bar : BarrierNode} {out : Array Nat}

theorem run_registerInput (hb : s.store.slots[b]? = some ⟨.barrier bar, out⟩)
    (hs : bar.satisfied = false) :
    (registerInput b).run.run s =
      (.ok (), { s with store := s.store.setNode b (.barrier bar.addInput) }) := by
  simp only [registerInput, run_get_bind, Store.barrierAt_eq hb, run_liftStore_ok_bind, hs,
    Bool.false_eq_true, if_false, run_modifyStore]

theorem run_satisfyInput_wait {sa : Slot} (ha : s.store.slots[a]? = some sa)
    (hb : s.store.slots[b]? = some ⟨.barrier bar, out⟩) (hw : 1 < bar.waiting) :
    (satisfyInput a b).run.run s = (.ok [], { s with store := s.store.setNode b (.barrier
      { bar with waiting := bar.waiting - 1, timing := bar.timing.advance sa.node.finishTime }) }) := by
  have h0 : bar.waiting ≠ 0 := by omega
  have h1 : 0 < bar.waiting - 1 := by omega
  simp only [satisfyInput, run_get_bind, Store.get_eq ha, Store.barrierAt_eq hb,
    run_liftStore_ok_bind, h0, h1, if_false, if_true, run_modifyStore_bind, run_pure]

theorem run_satisfyInput_fire {sa : Slot} (ha : s.store.slots[a]? = some sa)
    (hb : s.store.slots[b]? = some ⟨.barrier bar, out⟩) (hw : bar.waiting = 1) :
    (satisfyInput a b).run.run s = (.ok (out.toList.map (b, ·)), { s with
      store := s.store.setNode b (.barrier
        { bar with waiting := 0, timing := bar.timing.advance sa.node.finishTime }.fire)
      stats.barriersFired := s.stats.barriersFired + 1 }) := by
  simp only [satisfyInput, run_get_bind, Store.get_eq ha, Store.barrierAt_eq hb,
    run_liftStore_ok_bind, hw, Nat.one_ne_zero, if_false, Nat.sub_self, Nat.lt_irrefl,
    run_modifyStore_bind, run_modifyStats_bind]
  exact run_outEdges
    ⟨.barrier { bar with waiting := 0, timing := bar.timing.advance sa.node.finishTime }.fire, out⟩
    (by simp [Store.getElem?_setNode, hb]) rfl

theorem run_releaseUnit {un : UnitNode} {ou : Array Nat}
    (ha : s.store.slots[a]? = some ⟨.barrier bar, out⟩)
    (hb : s.store.slots[b]? = some ⟨.unit un, ou⟩) :
    (releaseUnit a b).run.run s = (.ok (), { s with
      store := s.store.setNode b (.unit { un with timing := un.timing.advance bar.timing.finish })
      queue := s.queue.push b (s.priority un.id) }) := by
  simp only [releaseUnit, run_get_bind, Store.barrierAt_eq ha, Store.unitAt_eq hb,
    run_liftStore_ok_bind, run_modifyStore_bind, run_modify]

end Barriers

section Propagation

variable {a b : Nat} {sa sb : Slot}

theorem run_propagate_input (ha : s.store.slots[a]? = some sa)
    (hka : sa.node.kind = .barrier ∨ sa.node.kind = .unit) (hb : s.store.slots[b]? = some sb)
    (hkb : sb.node.kind = .barrier) :
    (propagate a b).run.run s = (satisfyInput a b).run.run s := by
  rcases hka with hka | hka <;>
  simp only [propagate, run_get_bind, Store.kindAt_eq ha, Store.kindAt_eq hb,
    run_liftStore_ok_bind, hka, hkb]

theorem run_propagate_release (ha : s.store.slots[a]? = some sa) (hka : sa.node.kind = .barrier)
    (hb : s.store.slots[b]? = some sb) (hkb : sb.node.kind = .unit) :
    (propagate a b).run.run s = (releaseUnit a b >>= fun _ => pure []).run.run s := by
  simp only [propagate, run_get_bind, Store.kindAt_eq ha, Store.kindAt_eq hb,
    run_liftStore_ok_bind, hka, hkb]

theorem run_propagate_order (ha : s.store.slots[a]? = some sa) (hka : sa.node.kind = .unit)
    (hb : s.store.slots[b]? = some sb) (hkb : sb.node.kind = .processor) :
    (propagate a b).run.run s = (.ok [], s) := by
  simp only [propagate, run_get_bind, Store.kindAt_eq ha, Store.kindAt_eq hb,
    run_liftStore_ok_bind, hka, hkb, run_pure]

@[simp] theorem run_drainWith_zero (stack : List (Nat × Nat)) :
    (drainWith 0 stack).run.run s = (.ok (), s) := rfl

@[simp] theorem run_drainWith_nil (fuel : Nat) : (drainWith fuel []).run.run s = (.ok (), s) := by
  cases fuel <;> rfl

theorem run_drainWith_cons (fuel : Nat) (rest : List (Nat × Nat)) :
    (drainWith (fuel + 1) ((a, b) :: rest)).run.run s =
      (propagate a b >>= fun next => drainWith fuel (next ++ rest)).run.run s := rfl

theorem run_drain (stack : List (Nat × Nat)) :
    (drain stack).run.run s =
      (drainWith (stack.length + s.store.awaited * s.store.numEdges + 1) stack).run.run s := rfl

end Propagation

section Root

variable {r b : Nat} {t : Double} {ro : Array Nat} {bar : BarrierNode} {out : Array Nat}

theorem run_rootVertex (hroot : s.root = some r) (hr : s.store.slots[r]? = some ⟨.root t, ro⟩) :
    rootVertex.run.run s = (.ok (r, t), s) := by
  simp only [rootVertex, run_get_bind, hroot, Store.rootAt_eq hr, run_liftStore_ok_bind]
  rfl

theorem run_releaseFromRoot (hr : s.store.slots[r]? = some ⟨.root t, ro⟩)
    (hb : s.store.slots[b]? = some ⟨.barrier bar, out⟩) (hs : bar.satisfied = false)
    (hw : bar.waiting = 0) :
    (releaseFromRoot r b).run.run s = (drain (out.toList.map (b, ·))).run.run { s with
      store := s.store.setNode b (.barrier { bar with timing := bar.timing.advance t }.fire)
      stats.barriersFired := s.stats.barriersFired + 1 } := by
  simp only [releaseFromRoot, run_get_bind, Store.rootAt_eq hr, Store.barrierAt_eq hb,
    run_liftStore_ok_bind, hs, hw, Bool.false_eq_true, if_false, Nat.lt_irrefl,
    run_modifyStore_bind, run_modifyStats_bind]
  refine run_bind_ok (run_outEdges ⟨.barrier { bar with timing := bar.timing.advance t }.fire, out⟩
    ?_ rfl)
  simp [Store.getElem?_setNode, hb, hw, hs]

theorem run_releaseFromRoot_satisfied (hr : s.store.slots[r]? = some ⟨.root t, ro⟩)
    (hb : s.store.slots[b]? = some ⟨.barrier bar, out⟩) (hs : bar.satisfied = true) :
    (releaseFromRoot r b).run.run s = (.error (.barrierAlreadySatisfied b), s) := by
  simp only [releaseFromRoot, run_get_bind, Store.rootAt_eq hr, Store.barrierAt_eq hb,
    run_liftStore_ok_bind, hs, if_true, run_throw_bind]

theorem run_releaseFromRoot_waiting (hr : s.store.slots[r]? = some ⟨.root t, ro⟩)
    (hb : s.store.slots[b]? = some ⟨.barrier bar, out⟩) (hs : bar.satisfied = false)
    (hw : 0 < bar.waiting) :
    (releaseFromRoot r b).run.run s = (.error (.rootBarrierNotReady b bar.waiting), s) := by
  simp only [releaseFromRoot, run_get_bind, Store.rootAt_eq hr, Store.barrierAt_eq hb,
    run_liftStore_ok_bind, hs, hw, Bool.false_eq_true, if_false, if_true, run_throw_bind]

/-- Linking the root to a barrier fires it when it is not yet satisfied and awaits nothing, and
fails otherwise. -/
theorem run_releaseFromRoot_cases (r b : Nat) (s : Scheduler) :
    (∃ e, (releaseFromRoot r b).run.run s = (.error e, s)) ∨
      ∃ t ro bar out, s.store.slots[r]? = some ⟨.root t, ro⟩ ∧
        s.store.slots[b]? = some ⟨.barrier bar, out⟩ ∧ bar.satisfied = false ∧ bar.waiting = 0 ∧
        (releaseFromRoot r b).run.run s = (drain (out.toList.map (b, ·))).run.run { s with
          store := s.store.setNode b (.barrier { bar with timing := bar.timing.advance t }.fire)
          stats.barriersFired := s.stats.barriersFired + 1 } := by
  cases hr : s.store.rootAt r with
  | error e =>
    refine .inl ⟨.store e, ?_⟩
    simp only [releaseFromRoot, run_get_bind, hr, run_liftStore_error_bind]
  | ok t =>
    obtain ⟨ro, hroot⟩ := Store.slot_of_rootAt hr
    cases hb : s.store.barrierAt b with
    | error e =>
      refine .inl ⟨.store e, ?_⟩
      simp only [releaseFromRoot, run_get_bind, hr, run_liftStore_ok_bind, hb,
        run_liftStore_error_bind]
    | ok bar =>
      obtain ⟨out, hslot⟩ := Store.slot_of_barrierAt hb
      cases hsat : bar.satisfied
      · rcases Nat.eq_zero_or_pos bar.waiting with hw | hw
        · exact .inr ⟨t, ro, bar, out, hroot, hslot, hsat, hw, run_releaseFromRoot hroot hslot hsat hw⟩
        · exact .inl ⟨_, run_releaseFromRoot_waiting hroot hslot hsat hw⟩
      · exact .inl ⟨_, run_releaseFromRoot_satisfied hroot hslot hsat⟩

end Root

section Assign

variable {p u : Nat} {node : ProcessorNode} {op : Array Nat} {un : UnitNode} {ou : Array Nat}

/-- The unit placed on a processor node: ready when both are, finished its execution time
later, on the node's processor. -/
def placedUnit (un : UnitNode) (node : ProcessorNode) : UnitNode :=
  { un with
    timing := ⟨(un.timing.advance node.ready).ready, un.execTime + (un.timing.advance node.ready).ready⟩
    processor := some node.processor }

/-- The end of an assignment: a processor node for the next free moment, an edge to it from
the unit, and the spreading from the unit's edges. -/
theorem run_assign_tail {k : Nat} {fin : Double} {n : Nat} (slot : Slot) (hn : s.store.size = n)
    (hroom : s.store.size < s.store.limit) (hu : s.store.slots[u]? = some slot)
    (hk : slot.node.kind = .unit) :
    (do
      let next ← addVertex (.processor ⟨k, fin, false⟩)
      addOrderEdge .unit .processor u next
      drain (← outEdges .unit u)).run.run s =
      (drain ((slot.out.push n).toList.map (u, ·))).run.run { s with
        store := (s.store.append (.processor ⟨k, fin, false⟩)).appendEdge u n
        stats := { s.stats.noteVertex .processor with
          edges := (s.stats.noteVertex .processor).edges + 1 } } := by
  subst hn
  have hne : u ≠ s.store.size := Nat.ne_of_lt (Array.getElem?_eq_some_iff.1 hu).1
  have hu' : (s.store.append (.processor ⟨k, fin, false⟩)).slots[u]? = some slot := by
    rw [Store.getElem?_append, if_neg hne, hu]
  have hedge : (s.store.append (.processor ⟨k, fin, false⟩)).checkEdge .unit .processor u
      s.store.size = .ok () :=
    Store.checkEdge_eq hu' hk (by rw [Store.getElem?_append, if_pos rfl]) rfl
  have hout : ((s.store.append (.processor ⟨k, fin, false⟩)).appendEdge u s.store.size).slots[u]? =
      some { slot with out := slot.out.push s.store.size } := by
    rw [Store.getElem?_appendEdge, if_pos rfl, hu']
    rfl
  rw [run_bind_ok (run_addVertex _ hroom), addOrderEdge,
    run_bind_ok (run_guarded_ok (run_recordEdge hedge)),
    run_bind_ok (run_outEdges (k := .unit) { slot with out := slot.out.push s.store.size } hout hk)]
  rfl

/-- A free processor node takes an unplaced unit, and a new node for the processor's next free
moment follows it. -/
theorem run_assign (hp : s.store.slots[p]? = some ⟨.processor node, op⟩)
    (hocc : node.occupied = false) (hu : s.store.slots[u]? = some ⟨.unit un, ou⟩)
    (hsch : un.processor = none) (hpu : p ≠ u) (hroom : s.store.size < s.store.limit) :
    ∃ st : Stats, (assign p u).run.run s =
      (drain ((ou.push s.store.size).toList.map (u, ·))).run.run { s with
        store := (((s.store.setNode p (.processor { node with occupied := true })).setNode u
          (.unit (placedUnit un node))).append
            (.processor ⟨node.processor, (placedUnit un node).timing.finish, false⟩)).appendEdge
              u s.store.size
        stats := st } := by
  have hu1 : (s.store.setNode p (.processor { node with occupied := true })).slots[u]? =
      some ⟨.unit un, ou⟩ := by
    rw [Store.getElem?_setNode, if_neg hpu, hu]
  have hu2 : ((s.store.setNode p (.processor { node with occupied := true })).setNode u
      (.unit (placedUnit un node))).slots[u]? = some ⟨.unit (placedUnit un node), ou⟩ := by
    rw [Store.getElem?_setNode, if_pos rfl, hu1]
    rfl
  refine ⟨?_, ?_⟩
  rotate_left
  simp only [assign, run_get_bind, Store.processorAt_eq hp, run_liftStore_ok_bind, hocc,
    Bool.false_eq_true, if_false, run_modifyStore_bind, Store.unitAt_eq hu1, UnitNode.isScheduled,
    hsch, Option.isSome_none, run_modifyStats_bind]
  refine run_assign_tail ⟨.unit (placedUnit un node), ou⟩ ?_ ?_ ?_ rfl
  · simp
  · simpa using hroom
  · exact hu2

end Assign

section Dispatch

theorem run_dispatchWith_nil (fuel : Nat) (hq : s.queue.entries = []) :
    (dispatchWith (fuel + 1)).run.run s = (.ok (), s) := by
  simp only [dispatchWith, run_get_bind, ReadyQueue.pop?_of_entries_nil hq, run_pure]

theorem run_dispatchWith_cons (fuel : Nat) {e : ReadyEntry} {rest : List ReadyEntry} {p : Nat}
    (hq : s.queue.entries = e :: rest) (hp : s.store.earliestFree = some p) :
    (dispatchWith (fuel + 1)).run.run s =
      (addEdge .processor .unit p e.vertex >>= fun _ => dispatchWith fuel).run.run
        { s with queue := ⟨⟨rest⟩, s.queue.nextSeq⟩ } := by
  simp only [dispatchWith, run_get_bind, ReadyQueue.pop?_of_entries_cons hq, run_set_bind, hp]

theorem run_listSchedule {s' : Scheduler} (hph : s.phase = .started)
    (hd : (dispatchWith (s.store.size + 1)).run.run s = (.ok (), s')) :
    (listSchedule).run.run s =
      if s'.store.unassigned.isEmpty then (.ok (), { s' with phase := .done })
      else (.error (.unscheduled s'.store.unassigned), { s' with phase := .poisoned }) := by
  rw [listSchedule, run_bind_ok (run_enter hph nofun)]
  split
  · rename_i he
    refine run_finishStep_ok ?_
    simp only [run_get_bind, run_bind_ok hd, he, Bool.not_true, Bool.false_eq_true, if_false]
    rfl
  · rename_i he
    refine run_finishStep_error ?_
    simp only [run_get_bind, run_bind_ok hd, he, Bool.not_false, if_true]
    rfl

end Dispatch

end ListScheduling.Run
