import ListScheduling.Proofs.Refinement.Outcome
import ListScheduling.Proofs.Scheduler.Counts
import ListScheduling.Proofs.Scheduler.Root

/-!
The counts of a whole run.
-/
namespace List

variable {α β : Type}

theorem sum_map_toNat (l : List α) (p : α → Bool) : (l.map fun x => (p x).toNat).sum = l.countP p := by
  induction l with
  | nil => rfl
  | cons x l ih =>
    rw [List.map_cons, List.sum_cons, ih, List.countP_cons]
    cases p x
    · simp
    · simp only [Bool.toNat_true, if_true]
      omega

theorem sum_map_length_filter [DecidableEq β] {us : List β} (hu : us.Nodup) (l : List α)
    (f : α → β) (h : ∀ x ∈ l, f x ∈ us) :
    (us.map fun u => (l.filter fun x => f x = u).length).sum = l.length := by
  induction l with
  | nil => simp
  | cons x l ih =>
    have hx : ∀ u, ((x :: l).filter fun y => f y = u).length =
        (decide (f x = u)).toNat + (l.filter fun y => f y = u).length := by
      intro u
      by_cases hxu : f x = u <;> simp [hxu]
      omega
    have hcount : (us.map fun u => (decide (f x = u)).toNat).sum = 1 := by
      rw [sum_map_toNat, ← List.count_eq_one_of_mem hu (h x List.mem_cons_self), List.count]
      exact List.countP_congr fun u _ => by rw [decide_eq_true_iff, beq_iff_eq]; exact eq_comm
    simp only [hx, List.sum_map_add, hcount, ih fun y hy => h y (List.mem_cons_of_mem _ hy),
      List.length_cons]
    omega

end List

namespace ListScheduling.Direct

namespace Problem

variable (P : Problem)

/-- The dependencies recorded, counted with repetition. -/
def dependencyCount : Nat := ((List.range P.size).map fun t => (P.graph.successors t).length).sum

/-- The tasks without units. -/
def unitlessCount : Nat := (List.range P.size).countP fun t => P.unitCount t = 0

/-- The tasks that fire from the tasks `L`. -/
def firingCount (L : List Nat) : Nat := (List.range P.size).countP fun t => P.Fires L t

theorem length_entryOut (t : Nat) :
    (P.entryOut t).length = P.unitCount t + (decide (P.unitCount t = 0)).toNat := by
  unfold entryOut
  split <;> simp_all

theorem sum_length_entryOut :
    ((List.range P.size).map fun t => (P.entryOut t).length).sum = P.totalUnits + P.unitlessCount := by
  simp only [length_entryOut, List.sum_map_add, List.sum_map_toNat, totalUnits, unitlessCount]

end Problem

section Layout

variable {P : Problem} {ρ : State} {out : Array Nat}

theorem sum_barrierSlots (w : Slot → Nat) (n : Nat) :
    ((List.range (2 * n)).map fun i => w (barrierSlot P ρ i)).sum =
      ((List.range n).map fun t => w (entrySlot P ρ t) + w (exitSlot P ρ t)).sum := by
  induction n with
  | zero => rfl
  | succ n ih =>
    have h0 : (2 * n) % 2 = 0 := by omega
    have h1 : (2 * n + 1) % 2 = 1 := by omega
    have d0 : 2 * n / 2 = n := by omega
    have d1 : (2 * n + 1) / 2 = n := by omega
    rw [show 2 * (n + 1) = 2 * n + 1 + 1 by omega, List.range_succ, List.range_succ,
      List.range_succ, List.map_append, List.map_append, List.map_append, List.sum_append,
      List.sum_append, List.sum_append, ih]
    simp only [barrierSlot, h0, h1, d0, d1, List.map_cons, List.map_nil, List.sum_cons,
      List.sum_nil, if_true, Nat.one_ne_zero, if_false]
    omega

theorem sum_layout (w : Slot → Nat) :
    ((layout P ρ out).map w).sum = w (rootSlot P out) +
      ((List.range (P.processors + ρ.log.length)).map fun σ => w (processorSlot P ρ σ)).sum +
      ((List.range P.size).map fun t => w (entrySlot P ρ t) + w (exitSlot P ρ t)).sum +
      (P.units.map fun u => w (unitSlot P ρ u)).sum := by
  simp only [layout, List.map_cons, List.map_append, List.sum_cons, List.sum_append,
    List.map_map, List.range_add, sum_barrierSlots, Function.comp_def]
  omega

theorem firedCount_layout :
    ((layout P ρ out).map fun slot => slot.fired.toNat).sum =
      ((List.range P.size).map fun t => (ρ.task t).begun.toNat + (ρ.task t).ended.toNat).sum := by
  rw [sum_layout]
  simp [Slot.fired, rootSlot, processorSlot, entrySlot, exitSlot, unitSlot]

theorem scheduledCount_layout :
    ((layout P ρ out).map fun slot => slot.scheduled.toNat).sum =
      (P.units.map fun u => (ρ.unit u).processor.isSome.toNat).sum := by
  rw [sum_layout]
  simp [Slot.scheduled, rootSlot, processorSlot, entrySlot, exitSlot, unitSlot,
    UnitNode.isScheduled]

variable {es : List Event}

theorem sum_processorSlots (hI : Inv P ρ es) :
    ((List.range (P.processors + ρ.log.length)).map fun σ =>
      (processorSlot P ρ σ).out.size).sum = ρ.log.length := by
  simp only [processorSlot, List.size_toArray, List.length_map]
  refine List.sum_map_length_filter List.nodup_range _ _ fun pl hpl => ?_
  obtain ⟨j, hj, rfl⟩ := List.getElem_of_mem hpl
  have := hI.taken_lt j hj
  exact List.mem_range.2 (by omega)

theorem sum_units_one : (P.units.map fun _ => 1).sum = P.totalUnits := by
  rw [List.map_const', List.sum_const_nat, Nat.mul_one, P.length_units]

theorem sum_unitSlots (hI : Inv P ρ es) :
    (P.units.map fun u => (unitSlot P ρ u).out.size).sum = P.totalUnits + ρ.log.length := by
  simp only [unitSlot, nodesAfter, List.size_toArray, List.length_cons, List.length_map]
  rw [List.sum_map_add, sum_units_one, Nat.add_comm]
  congr 1
  have hfib := List.sum_map_length_filter ((P.nodup_units).map fun _ _ => Option.some.inj)
    (List.range ρ.log.length) (fun j => ρ.log[j]?.map Placement.id) fun j hj => by
      have hj' := List.mem_range.1 hj
      rw [List.getElem?_eq_getElem hj', Option.map_some]
      exact List.mem_map_of_mem (P.mem_units.2 (hI.log_valid (List.getElem_mem hj')))
  rw [List.map_map, List.length_range] at hfib
  exact hfib

theorem edgeTotal_layout (hI : Inv P ρ es) :
    ((layout P ρ out).map fun slot => slot.out.size).sum =
      out.size + P.dependencyCount + P.unitlessCount + 2 * P.totalUnits + 2 * ρ.log.length := by
  rw [sum_layout, sum_processorSlots hI, sum_unitSlots hI]
  have hbar : ((List.range P.size).map fun t =>
      (entrySlot P ρ t).out.size + (exitSlot P ρ t).out.size).sum =
      P.totalUnits + P.unitlessCount + P.dependencyCount := by
    simp only [entrySlot, exitSlot, List.size_toArray, List.length_map, List.sum_map_add,
      P.sum_length_entryOut, Problem.dependencyCount]
  rw [hbar]
  simp only [rootSlot]
  omega

end Layout

section Root

open Run

variable {P : Problem} {s : Scheduler} {ρ : State} {out : Array Nat}

theorem Renders.startEntries_root (h : Renders P s (initial P)) (hph : s.phase = .tasksInserted)
    (h0 : s.store.slots[0]? = some (rootSlot P out)) :
    Returns Run.startEntries s (fun _ => True) fun _ s' =>
      s'.store.slots[0]? = some (rootSlot P (out ++ (P.entries.map P.entryVertex).toArray)) := by
  unfold Run.startEntries
  refine Returns.bind_ok (run_enter hph (by decide)) ?_
  refine Returns.bind_ok (run_get _) ?_
  refine Returns.bind_ok h.scanEntries ?_
  exact (Returns.finishStep (linkEntries_root h.toLandmarks.root h0 _)).mono
    (fun _ _ ⟨_, h₀, hs⟩ => hs ▸ h₀) fun _ _ => trivial

theorem Renders.start_root (h : Renders P s ρ) (hph : s.phase = .tasksInserted) {t : Nat}
    (ht : t < P.size) (h0 : s.store.slots[0]? = some (rootSlot P out)) :
    Returns (Run.start t) s (fun _ => True) fun _ s' =>
      s'.store.slots[0]? = some (rootSlot P (out ++ ([t].map P.entryVertex).toArray)) := by
  unfold Run.start
  refine Returns.bind_ok (run_enter hph (by decide)) ?_
  refine Returns.bind_ok (run_get _) ?_
  rw [h.barrier_at ht]
  exact (Returns.finishStep (linkEntries_root h.toLandmarks.root h0 _)).mono
    (fun _ _ ⟨_, h₀, hs⟩ => hs ▸ h₀) fun _ _ => trivial

variable {split : Split} {limit : Nat}

/-- A whole run that succeeds leaves the root linked to the processors' first nodes, then to the
begins of the tasks it starts from. -/
theorem pipeline_root (hsplit : P.graph.unitTimes split = P.unitTimes)
    (hr : P.release.isFinite = true) (hp : 0 < P.processors) (hg : P.graph.WellFormed)
    (hx : ∀ t < P.size, ∀ x ∈ P.unitTimes t, x.isValidTime = true)
    (hroom : P.nodeBase + P.totalUnits ≤ (Store.withLimit limit).limit)
    (hdeg : ∀ t < P.size, P.inDegree t < BarrierNode.inputLimit) (source : Option Nat)
    (hsrc : ∀ t ∈ source, t < P.size) :
    Returns (Run.pipeline P.release P.processors P.graph split source)
      (Scheduler.new P.priority (Store.withLimit limit)) (fun _ => True) fun _ s =>
        s.store.slots[0]? = some (rootSlot P
          ((List.range P.processors).map (· + 1) ++ (P.linked source).map P.entryVertex).toArray) := by
  unfold Run.pipeline
  refine Returns.bind ((Building.build hsplit hr hp hg hx hroom hdeg).mono (fun _ _ h => h)
    fun _ h => h.elim) fun _ s₁ ⟨hB, hph₁⟩ => ?_
  have h₁ := hB.renders
  have hroot₁ : s₁.store.slots[0]? =
      some (rootSlot P ((List.range P.processors).map (· + 1)).toArray) := by
    rw [hB.getElem?]
    rfl
  have hls : ∀ (o : Array Nat) (s₂ : Scheduler), s₂.store.slots[0]? = some (rootSlot P o) →
      Returns Run.listSchedule s₂ (fun _ => True) fun _ s => s.store.slots[0]? = some (rootSlot P o) :=
    fun _ _ h₂ => (keepsRoot_listSchedule.returns ⟨_, h₂, rfl⟩).mono (fun _ _ h₃ => h₃.2.trans h₂)
      fun _ _ => trivial
  cases source with
  | none =>
    dsimp only
    exact Returns.bind (h₁.startEntries_root hph₁ hroot₁) fun _ s₂ h₂ =>
      hls _ s₂ (by rwa [Problem.linked, ← List.append_toArray])
  | some t =>
    dsimp only
    exact Returns.bind (h₁.start_root hph₁ (hsrc t rfl) hroot₁) fun _ s₂ h₂ =>
      hls _ s₂ (by rwa [Problem.linked, ← List.append_toArray])

end Root

section Whole

open Run

variable {P : Problem} {split : Split} {limit : Nat}

theorem tallies_pipeline {full : Prop} (time : Double) (count : Nat) (g : TaskGraph) (split : Split)
    (source : Option Nat) : Tallies full (Run.pipeline time count g split source) := by
  unfold Run.pipeline Run.build
  refine ((tallies_insertRoot _).bind fun _ => (tallies_createProcessors _).bind fun _ =>
    (tallies_insertConstraints _).bind fun _ => tallies_insertTasks _ _).bind fun _ => ?_
  cases source with
  | none => exact tallies_startEntries.bind fun _ => tallies_listSchedule
  | some t => exact (tallies_start t).bind fun _ => tallies_listSchedule

theorem Inv.length_log_of_placed {ρ : State} {es : List Event} (hI : Inv P ρ es)
    (hplaced : ∀ u, P.Valid u → (ρ.unit u).processor.isSome = true) :
    ρ.log.length = P.totalUnits := by
  have hperm : (ρ.log.map Placement.id).Perm P.units := by
    refine (List.perm_ext_iff_of_nodup hI.log_nodup P.nodup_units).2 fun u => ⟨fun hu => ?_,
      fun hu => hI.placed_mem u (hplaced u (P.mem_units.1 hu))⟩
    obtain ⟨pl, hpl, rfl⟩ := List.mem_map.1 hu
    exact P.mem_units.2 (hI.log_valid hpl)
  rw [← List.length_map (f := Placement.id), hperm.length_eq, P.length_units]

section Ends

variable {L : List Nat} (hg : P.graph.WellFormed) (hp : 0 < P.processors)
  (hL : ∀ t ∈ L, t < P.size ∧ P.inDegree t = 0)
include hg hp hL

/-- The counts of a run that renders the end of the direct run: one assignment per unit, and the
vertices and edges of the layout. -/
theorem Scheduler.Tally.counts_schedule {s : Scheduler} (htally : s.Tally True)
    (h : Renders P s (schedule P L))
    (hroot : s.store.slots[0]? = some (rootSlot P
      ((List.range P.processors).map (· + 1) ++ L.map P.entryVertex).toArray))
    (hall : ∀ t < P.size, 0 < P.unitCount t → P.Fires L t) :
    s.stats.assignments = P.totalUnits ∧
      s.stats.vertices = 1 + P.processors + 2 * P.size + 2 * P.totalUnits ∧
      s.stats.edges = P.processors + P.dependencyCount + P.unitlessCount + L.length +
        4 * P.totalUnits ∧
      s.stats.barriersFired = 2 * P.firingCount L := by
  have hI : Inv P (schedule P L) [] := Inv.schedule hg L
  have hplaced : ∀ u, P.Valid u → ((schedule P L).unit u).processor.isSome = true :=
    fun _ => placed_schedule_of_fires hg hp hL hall
  have hlog := hI.length_log_of_placed hplaced
  obtain ⟨o, hslots⟩ := h.slots
  have ho : o = ((List.range P.processors).map (· + 1) ++ L.map P.entryVertex).toArray := by
    have h0 : s.store.slots[0]? = some (rootSlot P o) := by
      rw [← Array.getElem?_toList, hslots]
      rfl
    rw [h0, Option.some.injEq, rootSlot, rootSlot, Slot.mk.injEq] at hroot
    exact hroot.2
  refine ⟨?_, ?_, ?_, ?_⟩
  · rw [htally.scheduled trivial, Store.scheduledCount, Store.total, hslots,
      scheduledCount_layout]
    have hone : (P.units.map fun u => ((schedule P L).unit u).processor.isSome.toNat) =
        P.units.map fun _ => 1 :=
      List.map_congr_left fun u hu => by rw [hplaced u (P.mem_units.1 hu), Bool.toNat_true]
    rw [hone, sum_units_one]
  · rw [htally.vertices, h.size, hlog]
    simp only [Problem.nodeBase, Problem.unitBase]
    omega
  · rw [htally.edges, htally.outs, Store.edgeTotal, Store.total, hslots, edgeTotal_layout hI, ho,
      hlog]
    simp only [List.size_toArray, List.length_append, List.length_map, List.length_range]
    omega
  · rw [htally.fired trivial, Store.firedCount, Store.total, hslots, firedCount_layout]
    have htwo : ((List.range P.size).map fun t =>
        ((schedule P L).task t).begun.toNat + ((schedule P L).task t).ended.toNat) =
        (List.range P.size).map fun t => 2 * (decide (P.Fires L t)).toNat := by
      refine List.map_congr_left fun t ht => ?_
      have hb := begun_schedule_iff hg hp hL (t := t)
      have he := ended_schedule_iff hg hp hL (List.mem_range.1 ht)
      by_cases hf : P.Fires L t
      · simp [hb.2 hf, he.2 hf, hf]
      · rw [Bool.eq_false_iff.2 (mt hb.1 hf), Bool.eq_false_iff.2 (mt he.1 hf)]
        simp [hf]
    rw [htwo, List.sum_map_mul_left _ _ (2 : Nat), List.sum_map_toNat, Problem.firingCount]

end Ends

/-- The counts of a run. -/
theorem pipeline_stats (hsplit : P.graph.unitTimes split = P.unitTimes)
    (hr : P.release.isFinite = true) (hp : 0 < P.processors) (hg : P.graph.WellFormed)
    (hx : ∀ t < P.size, ∀ x ∈ P.unitTimes t, x.isValidTime = true)
    (hroom : P.nodeBase + P.totalUnits ≤ (Store.withLimit limit).limit)
    (hdeg : ∀ t < P.size, P.inDegree t < BarrierNode.inputLimit) (source : Option Nat)
    (hsrc : ∀ t ∈ source, t < P.size ∧ P.inDegree t = 0) :
    (let out := (Run.pipeline P.release P.processors P.graph split source).run.run
      (Scheduler.new P.priority (Store.withLimit limit))
    out.1 = .ok () →
      (out.2.stats.assignments = P.totalUnits ∧
        out.2.stats.vertices = 1 + P.processors + 2 * P.size + 2 * P.totalUnits ∧
        out.2.stats.edges = P.processors + P.dependencyCount + P.unitlessCount +
          (P.linked source).length + 4 * P.totalUnits ∧
        out.2.stats.barriersFired = 2 * P.firingCount (P.linked source)) ∧
      (P.graph.Acyclic → source = none → out.2.stats.barriersFired = 2 * P.size)) ∧
    ∀ (priority : UnitId → Double) (limit' : Nat) (calls : List Call),
      (Call.runAll calls (Scheduler.new priority (Store.withLimit limit'))).Counted := by
  refine ⟨fun hok => ?_, counted_runAll⟩
  have hL := linked_awaits_nothing hsrc
  have hall := (pipeline_endsAsFiring hsplit hr hp hg hx hroom hdeg source hsrc).fires_of_ok hok
  have hroot := (pipeline_root hsplit hr hp hg hx hroom hdeg source fun t ht => (hsrc t ht).1).of_eq_ok
    (Prod.ext hok rfl)
  have hcounts := Scheduler.Tally.counts_schedule hg hp hL
    (tallies_pipeline _ _ _ _ _ _ (Scheduler.Tally.new P.priority limit))
    (Renders.pipeline hsplit hr hp hg hx hroom hdeg source) hroot hall
  refine ⟨hcounts, fun ha hs => ?_⟩
  subst hs
  have hfire : ∀ t ∈ List.range P.size, decide (P.Fires (P.linked none) t) = true :=
    fun t ht => decide_eq_true (P.fires_entries_of_acyclic ha (List.mem_range.1 ht))
  rw [hcounts.2.2.2, Problem.firingCount, List.countP_eq_length.2 hfire, List.length_range]

theorem pipeline_stats_diamond :
    Problem.diamond.nodeBase + Problem.diamond.totalUnits ≤ (Store.withLimit 100).limit ∧
    (let out := (Run.pipeline Problem.diamond.release 2 diamondGraph .subtasks none).run.run
      (Scheduler.new Problem.diamond.priority (Store.withLimit 100))
    out.1 = .ok () →
      (out.2.stats.assignments = Problem.diamond.totalUnits ∧
        out.2.stats.vertices =
          1 + Problem.diamond.processors + 2 * Problem.diamond.size + 2 * Problem.diamond.totalUnits ∧
        out.2.stats.edges = Problem.diamond.processors + Problem.diamond.dependencyCount +
          Problem.diamond.unitlessCount + (Problem.diamond.linked none).length +
            4 * Problem.diamond.totalUnits ∧
        out.2.stats.barriersFired = 2 * Problem.diamond.firingCount (Problem.diamond.linked none)) ∧
      (diamondGraph.Acyclic → (none : Option Nat) = none →
        out.2.stats.barriersFired = 2 * Problem.diamond.size)) ∧
    ∀ (priority : UnitId → Double) (limit' : Nat) (calls : List Call),
      (Call.runAll calls (Scheduler.new priority (Store.withLimit limit'))).Counted :=
  ⟨by decide, pipeline_stats rfl (by decide) (by decide) (by unfold TaskGraph.WellFormed; decide)
    (by decide) (by decide) (by decide +kernel) none (by simp)⟩

/-- A vertex pushed straight into the store of a run, around the run, is not counted: after one
such push into a fresh run, the store holds a vertex and the run has counted none. -/
theorem raw_push_uncounted :
    ∃ s, (Scheduler.new (fun _ => Double.zero) (Store.withLimit 8)).editStore
      (·.push (.root Double.zero)) = .ok (0, s) ∧ s.stats.vertices ≠ s.store.size :=
  ⟨_, rfl, by decide⟩

end Whole

end ListScheduling.Direct