import ListScheduling.Proofs.Refinement.Relation
import ListScheduling.Proofs.Double.Order

/-!
The spreading of readiness follows the deliveries of the direct scheduler.
-/
namespace ListScheduling.Direct

open Run

variable {P : Problem}

section Reference

variable {ρ : State} {t : Nat} {f : Double}

theorem finishInput_fire (ht : t < P.size) (h1 : (ρ.task t).pending = 1) :
    finishInput P ρ t f = (ρ.setTask t { ρ.task t with
      pending := 0
      endTime := Double.maxNum (ρ.task t).endTime f
      ended := true }, P.endEvents t) := by
  simp [finishInput, ht, h1]

theorem finishInput_wait (ht : t < P.size) (h1 : 1 < (ρ.task t).pending) :
    finishInput P ρ t f = (ρ.setTask t { ρ.task t with
      pending := (ρ.task t).pending - 1
      endTime := Double.maxNum (ρ.task t).endTime f }, []) := by
  have h0 : 0 < (ρ.task t).pending := by omega
  have hne : (ρ.task t).pending - 1 ≠ 0 := by omega
  simp [finishInput, ht, h0, hne]

theorem step_input_fire {pred : Nat} (ht : t < P.size) (h1 : (ρ.task t).remaining = 1) :
    step P ρ (.input pred t) = (ρ.setTask t { ρ.task t with
      remaining := 0
      beginTime := Double.maxNum (ρ.task t).beginTime (ρ.task pred).endTime
      begun := true }, P.beginEvents t) := by
  simp [step, ht, h1]

theorem step_input_wait {pred : Nat} (ht : t < P.size) (h1 : 1 < (ρ.task t).remaining) :
    step P ρ (.input pred t) = (ρ.setTask t { ρ.task t with
      remaining := (ρ.task t).remaining - 1
      beginTime := Double.maxNum (ρ.task t).beginTime (ρ.task pred).endTime }, []) := by
  have h0 : 0 < (ρ.task t).remaining := by omega
  have hne : (ρ.task t).remaining - 1 ≠ 0 := by omega
  simp [step, ht, h0, hne]

@[simp] theorem log_step (ev : Event) : (step P ρ ev).1.log = ρ.log := by
  cases ev with
  | input pred t => simp only [step]; split <;> (try split) <;> rfl
  | release t k => rfl
  | skip t | done t k => simp only [step, finishInput]; split <;> (try split) <;> rfl

theorem log_drain (es : List Event) : (drain P ρ es).log = ρ.log := by
  induction ρ, es using drain.induct P with
  | case1 ρ => rw [drain]
  | case2 ρ ev rest ih => rw [drain, ih, log_step]

end Reference

section Edges

theorem entryOut_edges (t : Nat) :
    (P.entryOut t).map (P.entryVertex t, ·) = (P.beginEvents t).map P.edge := by
  unfold Problem.entryOut Problem.beginEvents
  split <;> simp [Problem.edge]

theorem successors_edges (t : Nat) :
    ((P.graph.successors t).map P.entryVertex).map (P.exitVertex t, ·) =
      (P.endEvents t).map P.edge := by
  simp [Problem.endEvents, Problem.edge]

end Edges

section Barrier

variable {s : Scheduler} {ρ : State} {t a : Nat} {sa : Slot}

/-- What an input of a delivery does: the deliveries it causes, as edges, and a rendering of
the state it leaves, with the phase and the edge count as they were. -/
def Delivers (P : Problem) (s : Scheduler) (x : Run (List (Nat × Nat))) (r : State × List Event) :
    Prop :=
  ∃ s' next, x.run.run s = (.ok next, s') ∧ next = r.2.map P.edge ∧ Renders P s' r.1 ∧
    s'.phase = s.phase ∧ s'.store.numEdges = s.store.numEdges ∧ r.2.length ≤ s.store.numEdges

theorem Delivers.congr {x y : Run (List (Nat × Nat))} {r : State × List Event}
    (hxy : y.run.run s = x.run.run s) (h : Delivers P s x r) : Delivers P s y r := by
  obtain ⟨s', next, hrun, hrest⟩ := h
  exact ⟨s', next, hxy.trans hrun, hrest⟩

theorem Renders.satisfy_exit (h : Renders P s ρ) (ht : t < P.size) (hp : 0 < (ρ.task t).pending)
    (ha : s.store.slots[a]? = some sa) :
    Delivers P s (satisfyInput a (P.exitVertex t)) (finishInput P ρ t sa.node.finishTime) := by
  have hb := h.exit ht
  by_cases h1 : (ρ.task t).pending = 1
  · rw [finishInput_fire ht h1]
    refine ⟨_, _, run_satisfyInput_fire ha hb h1, ?_,
      h.setNode ⟨rfl, rfl, rfl, rfl⟩ rfl (fun out => ?_) h.queue, rfl, rfl, ?_⟩
    · exact successors_edges t
    · refine layout_setTask_exit ht ?_ (by simp [entrySlot])
      simp [exitSlot, BarrierNode.fire, Timing.advance, Timing.since, h1]
    · have := h.edges.out_size_le hb
      simpa [exitSlot, Problem.endEvents] using this
  · have h2 : 1 < (ρ.task t).pending := by omega
    rw [finishInput_wait ht h2]
    refine ⟨_, _, run_satisfyInput_wait ha hb h2, rfl,
      h.setNode ⟨rfl, rfl, rfl, rfl⟩ rfl (fun out => ?_) h.queue, rfl, rfl, Nat.zero_le _⟩
    refine layout_setTask_exit ht ?_ (by simp [entrySlot])
    simp [exitSlot, Timing.advance, Timing.since, Double.maxNum_maxNum_self]

theorem Renders.satisfy_entry {pred : Nat} (h : Renders P s ρ) (hpred : pred < P.size)
    (ht : t < P.size) (hr : 0 < (ρ.task t).remaining) :
    Delivers P s (satisfyInput (P.exitVertex pred) (P.entryVertex t)) (step P ρ (.input pred t)) := by
  have ha := h.exit hpred
  have hb := h.entry ht
  by_cases h1 : (ρ.task t).remaining = 1
  · rw [step_input_fire ht h1]
    refine ⟨_, _, run_satisfyInput_fire ha hb h1, ?_,
      h.setNode ⟨rfl, rfl, rfl, rfl⟩ rfl (fun out => ?_) h.queue, rfl, rfl, ?_⟩
    · exact entryOut_edges t
    · refine layout_setTask_entry ht ?_ (by simp [exitSlot])
      simp [entrySlot, exitSlot, Node.finishTime, BarrierNode.fire, Timing.advance, Timing.since, h1]
    · have := h.edges.out_size_le hb
      rw [← List.length_map (f := P.edge), ← entryOut_edges]
      simpa [entrySlot] using this
  · have h2 : 1 < (ρ.task t).remaining := by omega
    rw [step_input_wait ht h2]
    refine ⟨_, _, run_satisfyInput_wait ha hb h2, rfl,
      h.setNode ⟨rfl, rfl, rfl, rfl⟩ rfl (fun out => ?_) h.queue, rfl, rfl, Nat.zero_le _⟩
    refine layout_setTask_entry ht ?_ (by simp [exitSlot])
    simp [entrySlot, exitSlot, Node.finishTime, Timing.advance, Timing.since,
      Double.maxNum_maxNum_self]

end Barrier

section Queue

theorem insert_held (u : UnitId) {q : List UnitId} {L : List ReadyEntry} {n : Nat}
    (hL : L.map ReadyEntry.held = q.map P.queueEntry) (hn : ∀ f ∈ L, f.seq < n) :
    (SortedHeap.insert ⟨P.priority u, n, P.unitVertex u⟩ L).map ReadyEntry.held =
      (enqueue P.priority u q).map P.queueEntry := by
  induction q generalizing L with
  | nil => rw [List.map_eq_nil_iff.1 hL]; rfl
  | cons v q ih =>
    obtain ⟨f, L', rfl, hf, hL'⟩ := List.map_eq_cons_iff.1 hL
    have hseq : f.seq < n := hn f List.mem_cons_self
    obtain ⟨hfv, hfp⟩ := Prod.mk.inj hf
    have hgt := ReadyEntry.cmp_eq_gt_of_seq_lt (e := ⟨P.priority u, n, P.unitVertex u⟩) hseq
    have hfp' : f.priority = P.priority v := hfp
    rw [hfp'] at hgt
    simp only [SortedHeap.insert, enqueue, hgt]
    split
    · simp [ReadyEntry.held, Problem.queueEntry, hfv, hfp, hL']
    · simp [hf, ih hL' fun g hg => hn g (List.mem_cons_of_mem _ hg)]

end Queue

section Delivery

variable {s : Scheduler} {ρ : State} {rest : List Event}

theorem Renders.release {t k : Nat} (h : Renders P s ρ) (ht : t < P.size) (hk : k < P.unitCount t) :
    Delivers P s (propagate (P.entryVertex t) (P.unitVertex ⟨t, k⟩)) (step P ρ (.release t k)) := by
  have hu : P.Valid ⟨t, k⟩ := ⟨ht, hk⟩
  have ha := h.entry ht
  have hb := h.unit hu
  refine Delivers.congr (run_propagate_release ha rfl hb rfl) ⟨_, _, run_bind_ok (run_releaseUnit ha hb), rfl,
    h.setNode ⟨rfl, rfl, rfl, rfl⟩ rfl (fun out => ?_) ?_, rfl, rfl, Nat.zero_le _⟩
  · refine layout_modify_unit hu ?_ (fun w hw => ?_) rfl rfl
    · simp [unitSlot, entrySlot, step, Timing.since]
    · simp [step, hw]
  · refine ⟨?_, fun e he => ?_⟩
    · simp only [ReadyQueue.entries_push, h.priority, unitSlot, step, State.setUnit]
      exact insert_held _ h.queue.held h.queue.stamped
    · rcases List.mem_cons.1 ((SortedHeap.insert_perm _ _).mem_iff.1 he) with rfl | he
      · exact Nat.lt_succ_self _
      · exact Nat.lt_succ_of_lt (h.queue.stamped e he)

/-- A delivery travels along its edge: the run does to the rendering what the delivery does
to the state. -/
theorem Renders.propagate (h : Renders P s ρ) {ev : Event} (hI : Inv P ρ (ev :: rest)) :
    Delivers P s (propagate (P.edge ev).1 (P.edge ev).2) (step P ρ ev) := by
  have hwf := hI.events_wf ev List.mem_cons_self
  cases ev with
  | input pred t =>
    obtain ⟨hpred, ht⟩ := hwf
    have hr := hI.remaining_eq t ht
    simp only [List.countP_cons, Event.isInputTo_input, beq_self_eq_true, if_true] at hr
    exact Delivers.congr (run_propagate_input (h.exit hpred) (.inl rfl) (h.entry ht) rfl)
      (h.satisfy_entry hpred ht (by omega))
  | release t k => exact h.release hwf.1 hwf.2
  | skip t =>
    have he : EndInput P (.skip t) t := ⟨hwf.1, by simp, by simp, by simp, fun x hx => by simp [Ne.symm hx]⟩
    have hp := he.pending_pos hI
    have hstep : step P ρ (.skip t) = finishInput P ρ t (entrySlot P ρ t).node.finishTime := rfl
    rw [hstep]
    exact Delivers.congr (run_propagate_input (h.entry hwf.1) (.inl rfl) (h.exit hwf.1) rfl)
      (h.satisfy_exit hwf.1 (by omega) (h.entry hwf.1))
  | done t k =>
    have he : EndInput P (.done t k) t := ⟨hwf.1, by simp, by simp, by simp, fun x hx => by simp [Ne.symm hx]⟩
    have hp := he.pending_pos hI
    have hu : P.Valid ⟨t, k⟩ := ⟨hwf.1, hwf.2⟩
    have hstep : step P ρ (.done t k) = finishInput P ρ t (unitSlot P ρ ⟨t, k⟩).node.finishTime :=
      rfl
    rw [hstep]
    exact Delivers.congr (run_propagate_input (h.unit hu) (.inr rfl) (h.exit hwf.1) rfl)
      (h.satisfy_exit hwf.1 (by omega) (h.unit hu))

end Delivery

section Drain

variable {s : Scheduler} {ρ : State}

/-- An edge from a unit to a processor node that an assignment made. -/
def OrderEdge (P : Problem) (ρ : State) (e : Nat × Nat) : Prop :=
  ∃ u j, P.Valid u ∧ j < ρ.log.length ∧ e = (P.unitVertex u, P.nodeBase + j)

theorem Renders.drainWith_order (h : Renders P s ρ) {tail : List (Nat × Nat)}
    (htail : ∀ e ∈ tail, OrderEdge P ρ e) {fuel : Nat} :
    (drainWith fuel tail).run.run s = (.ok (), s) := by
  induction tail generalizing fuel with
  | nil => exact run_drainWith_nil fuel
  | cons e tail ih =>
    obtain ⟨u, j, hu, hj, rfl⟩ := htail e List.mem_cons_self
    cases fuel with
    | zero => rfl
    | succ fuel =>
      rw [run_drainWith_cons, run_bind_ok (run_propagate_order (h.unit hu) rfl (h.node hj) rfl),
        List.nil_append]
      exact ih fun e he => htail e (List.mem_cons_of_mem _ he)

/-- The concrete spreading of a stack of deliveries renders the direct scheduler's draining, given
enough fuel. -/
theorem Renders.drainWith (hg : P.graph.WellFormed) {es : List Event} (hI : Inv P ρ es)
    (h : Renders P s ρ) {tail : List (Nat × Nat)} (htail : ∀ e ∈ tail, OrderEdge P ρ e)
    {fuel : Nat} (hfuel : es.length + tail.length + weight P ρ * s.store.numEdges ≤ fuel) :
    ∃ s', (drainWith fuel (es.map P.edge ++ tail)).run.run s = (.ok (), s') ∧
      Renders P s' (drain P ρ es) ∧ s'.phase = s.phase := by
  induction ρ, es using drain.induct P generalizing s fuel with
  | case1 ρ =>
    rw [drain]
    exact ⟨s, h.drainWith_order htail, h, rfl⟩
  | case2 ρ ev rest ih =>
    obtain ⟨s₁, next, hrun, hnext, h₁, hph, hedges, hlen⟩ := h.propagate hI
    obtain ⟨fuel, rfl⟩ : ∃ f, fuel = f + 1 := ⟨fuel - 1, by simp at hfuel; omega⟩
    -- the weight goes down when the step stacks edges, and the stack does otherwise
    have hbound : ((step P ρ ev).2 ++ rest).length + tail.length +
        weight P (step P ρ ev).1 * s₁.store.numEdges ≤ fuel := by
      rw [hedges, List.length_append]
      rcases step_weight P ρ ev with hw | ⟨hw, hn⟩
      · have hmul := Nat.mul_le_mul_right s.store.numEdges (Nat.succ_le_of_lt hw)
        rw [Nat.succ_mul] at hmul
        simp only [List.length_cons] at hfuel
        omega
      · rw [hn, hw]
        simp only [List.length_cons] at hfuel
        simp only [List.length_nil]
        omega
    obtain ⟨s', hrun', h', hph'⟩ := ih (hI.step hg) h₁
      (fun e he => by rw [OrderEdge, log_step]; exact htail e he) hbound
    refine ⟨s', ?_, by rw [drain]; exact h', hph'.trans hph⟩
    rw [List.map_cons, List.cons_append, run_drainWith_cons, run_bind_ok hrun, hnext,
      ← List.append_assoc, ← List.map_append]
    exact hrun'

theorem Renders.drain (hg : P.graph.WellFormed) {es : List Event} (hI : Inv P ρ es)
    (h : Renders P s ρ) {tail : List (Nat × Nat)} (htail : ∀ e ∈ tail, OrderEdge P ρ e) :
    ∃ s', (Run.drain (es.map P.edge ++ tail)).run.run s = (.ok (), s') ∧
      Renders P s' (Direct.drain P ρ es) ∧ s'.phase = s.phase := by
  rw [run_drain, h.awaited]
  exact h.drainWith hg hI htail (by simp only [List.length_append, List.length_map]; omega)

end Drain

end ListScheduling.Direct
