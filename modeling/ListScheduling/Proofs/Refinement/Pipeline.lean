import ListScheduling.Proofs.Refinement.Start

/-!
A whole run refines the direct scheduler.
-/
namespace ListScheduling

/-- The assignment a vertex records: for a placed unit, the unit, its processor and its
times. -/
def Slot.assignment (slot : Slot) : Option Direct.Assignment :=
  match slot.node with
  | .unit u => u.processor.map fun k => ⟨u.id, k, u.timing.ready, u.timing.finish⟩
  | _ => none

/-- The assignment of the unit that leads to processor node `v`. -/
def Store.placedBefore (st : Store) (v : Nat) : Option Direct.Assignment :=
  st.slots.toList.findSome? fun slot => if v ∈ slot.out.toList then slot.assignment else none

/-- The processor nodes made by assignments, in the order they were made: all but the
processors' first ones. -/
def Scheduler.madeNodes (s : Scheduler) : List Nat :=
  s.store.slots.toList.zipIdx.filterMap fun (slot, v) =>
    match slot.node with
    | .processor _ => if v ∈ s.processors.toList then none else some v
    | _ => none

/-- The assignments of a run in the order they were made. -/
def Scheduler.assignments (s : Scheduler) : List Direct.Assignment :=
  s.madeNodes.filterMap s.store.placedBefore

namespace Run

/-- A whole run: the construction, the start from `source` or from every task that awaits no
input, and the list scheduling. -/
def pipeline (time : Double) (count : Nat) (g : TaskGraph) (split : Split)
    (source : Option Nat) : Run Unit := do
  build time count g split
  match source with
  | some t => start t
  | none => startEntries
  listSchedule

end Run

namespace Direct

open Run

variable {P : Problem}

/-- The tasks a run starts from: the given source, or every task that awaits no input. -/
def Problem.linked (P : Problem) : Option Nat → List Nat
  | some t => [t]
  | none => P.entries

section Readout

variable {s : Scheduler} {ρ : State}

theorem Renders.madeNodes (h : Renders P s ρ) :
    s.madeNodes = (List.range ρ.log.length).map (P.nodeBase + ·) := by
  obtain ⟨out, hout⟩ := h.slots
  unfold Scheduler.madeNodes
  rw [hout, layout, List.zipIdx_cons, List.filterMap_cons_none rfl, List.zipIdx_append,
    List.zipIdx_append, List.zipIdx_append, List.filterMap_append, List.filterMap_append,
    List.filterMap_append, List.zipIdx_map_range, List.zipIdx_map_range, List.zipIdx_map_range,
    (List.filterMap_eq_nil_iff (l := (List.range P.processors).map _)).2 ?processors,
    (List.filterMap_eq_nil_iff (l := (List.range (2 * P.size)).map _)).2 ?barriers,
    (List.filterMap_eq_nil_iff (l := (P.units.map (unitSlot P ρ)).zipIdx _)).2 ?units,
    List.nil_append, List.nil_append, List.nil_append, List.filterMap_map]
  case processors =>
    intro x hx
    obtain ⟨σ, hσ, rfl⟩ := List.mem_map.1 hx
    have hmem : 0 + 1 + σ ∈ s.processors.toList := by
      rw [h.processors, List.mem_map]
      exact ⟨σ, hσ, by omega⟩
    simp [processorSlot, hmem]
  case barriers =>
    intro x hx
    obtain ⟨i, -, rfl⟩ := List.mem_map.1 hx
    by_cases hi : i % 2 = 0 <;> simp [barrierSlot, hi, entrySlot, exitSlot]
  case units =>
    intro x hx
    obtain ⟨u, -, hu⟩ := List.mem_map.1 (List.fst_mem_of_mem_zipIdx hx)
    obtain ⟨slot, v⟩ := x
    subst hu
    rfl
  have hbase : 0 + 1 + ((List.range P.processors).map (processorSlot P ρ) ++
      (List.range (2 * P.size)).map (barrierSlot P ρ) ++ P.units.map (unitSlot P ρ)).length =
      P.nodeBase := by
    simp only [List.length_append, List.length_map, List.length_range, Problem.length_units,
      Problem.nodeBase, Problem.unitBase]
    omega
  rw [hbase, ← List.filterMap_eq_map]
  refine List.filterMap_congr fun j _ => ?_
  have hnot : P.nodeBase + j ∉ s.processors.toList := by
    rw [h.processors, List.mem_map]
    rintro ⟨σ, hσ, he⟩
    simp only [List.mem_range, Problem.nodeBase, Problem.unitBase] at hσ he
    omega
  simp only [Function.comp_apply, processorSlot, hnot, if_false]

theorem mem_layout {out : Array Nat} {slot : Slot} (h : slot ∈ layout P ρ out) :
    slot.assignment = none ∨ ∃ u ∈ P.units, slot = unitSlot P ρ u := by
  simp only [layout, List.mem_cons, List.mem_append, List.mem_map] at h
  rcases h with rfl | ((⟨σ, -, rfl⟩ | ⟨i, -, rfl⟩) | ⟨u, hu, rfl⟩) | ⟨j, -, rfl⟩
  · exact .inl rfl
  · exact .inl rfl
  · left
    unfold barrierSlot
    split <;> rfl
  · exact .inr ⟨u, hu, rfl⟩
  · exact .inl rfl

/-- The unit that leads to the node of the `j`-th placement is the one placed there, with the
placement's processor and times. -/
theorem Renders.placedBefore (h : Renders P s ρ) {es : List Event} (hI : Inv P ρ es) {j : Nat}
    (hj : j < ρ.log.length) : s.store.placedBefore (P.nodeBase + j) = some ρ.log[j].assignment := by
  obtain ⟨out, hout⟩ := h.slots
  set pl := ρ.log[j]
  have hpl : pl ∈ ρ.log := List.getElem_mem hj
  have hunit := hI.log_unit pl hpl
  -- the unit slots are the only ones that record an assignment; the one that leads to the
  -- node is that of the unit placed there
  have hread : ∀ u ∈ P.units,
      (if P.nodeBase + j ∈ (unitSlot P ρ u).out.toList then (unitSlot P ρ u).assignment
        else none) = if u = pl.id then some pl.assignment else none := by
    intro u hu
    have hexit : P.exitVertex u.task < P.nodeBase := by
      have := (P.mem_units.1 hu).1
      simp only [Problem.exitVertex, Problem.nodeBase, Problem.unitBase]
      omega
    have hmem : P.nodeBase + j ∈ (unitSlot P ρ u).out.toList ↔ u = pl.id := by
      simp only [unitSlot, nodesAfter, List.toList_toArray, List.mem_cons, List.mem_map,
        List.mem_filter, List.mem_range, Nat.add_left_cancel_iff, exists_eq_right,
        List.getElem?_eq_getElem hj, Option.map_some, Option.some.injEq, decide_eq_true_eq]
      constructor
      · rintro (he | ⟨-, he⟩)
        · omega
        · exact he.symm
      · intro he
        exact .inr ⟨hj, he.symm⟩
    by_cases hu' : u = pl.id
    · rw [if_pos (hmem.2 hu'), if_pos hu']
      subst hu'
      simp only [unitSlot, Slot.assignment, hunit, Option.map_some]
      rfl
    · rw [if_neg (fun h' => hu' (hmem.1 h')), if_neg hu']
  unfold Store.placedBefore
  rw [hout]
  cases hfind : (layout P ρ out).findSome?
      (fun slot => if P.nodeBase + j ∈ slot.out.toList then slot.assignment else none) with
  | none =>
    have hin : unitSlot P ρ pl.id ∈ layout P ρ out := by
      simp only [layout, List.mem_cons, List.mem_append, List.mem_map]
      exact .inr (.inl (.inr ⟨pl.id, P.mem_units.2 (hI.log_valid hpl), rfl⟩))
    have hnone := List.findSome?_eq_none_iff.1 hfind _ hin
    rw [hread _ (P.mem_units.2 (hI.log_valid hpl)), if_pos rfl] at hnone
    cases hnone
  | some a =>
    obtain ⟨slot, hslot, ha⟩ := List.exists_of_findSome?_eq_some hfind
    rcases mem_layout hslot with hn | ⟨u, hu, rfl⟩
    · rw [hn] at ha
      split at ha <;> cases ha
    · rw [hread u hu] at ha
      split at ha
      · exact ha.symm
      · cases ha

theorem Renders.assignments (h : Renders P s ρ) {es : List Event} (hI : Inv P ρ es) :
    s.assignments = ρ.log.map Placement.assignment := by
  rw [Scheduler.assignments, h.madeNodes, List.filterMap_map]
  have hread : (List.range ρ.log.length).filterMap (s.store.placedBefore ∘ (P.nodeBase + ·)) =
      (List.range ρ.log.length).filterMap fun j => ρ.log[j]?.map Placement.assignment := by
    refine List.filterMap_congr fun j hj => ?_
    have hj' := List.mem_range.1 hj
    rw [Function.comp_apply, h.placedBefore hI hj', List.getElem?_eq_getElem hj', Option.map_some]
  rw [hread]
  clear hread
  induction ρ.log with
  | nil => rfl
  | cons pl log ih =>
    rw [List.length_cons, List.range_succ_eq_map, List.filterMap_cons, List.filterMap_map]
    simp only [List.getElem?_cons_zero, Option.map_some, List.map_cons, Function.comp_def,
      List.getElem?_cons_succ]
    rw [ih]

end Readout

section Whole

variable {ρ : State} {t : Nat}

theorem start_initial_of_not (h : ¬ (t < P.size ∧ P.inDegree t = 0)) :
    start P (initial P) t = initial P :=
  start_skip fun h' => h ⟨h'.1, h'.2.2⟩

theorem dispatch_initial : dispatch P (initial P) = initial P := dispatch_of_queue_nil rfl

theorem Problem.execTime_isNaN {u : UnitId} (hx : ∀ t < P.size, ∀ x ∈ P.unitTimes t, x.isValidTime = true)
    (hu : P.Valid u) : (P.execTime u).isNaN = false := by
  have hk : u.subtask < (P.unitTimes u.task).length := hu.2
  have hv := hx u.task hu.1 _ (List.getElem_mem hk)
  simp only [Double.isValidTime, Bool.and_eq_true] at hv
  simpa [Problem.execTime, List.getElem?_eq_getElem hk] using Double.not_isNaN_of_isFinite hv.1

variable {split : Split} {limit : Nat}

/-- A whole run renders the direct scheduler run from the tasks it starts from, whatever its
outcome. -/
theorem Renders.pipeline (hsplit : P.graph.unitTimes split = P.unitTimes)
    (hr : P.release.isFinite = true) (hp : 0 < P.processors) (hg : P.graph.WellFormed)
    (hx : ∀ t < P.size, ∀ x ∈ P.unitTimes t, x.isValidTime = true)
    (hroom : P.nodeBase + P.totalUnits ≤ (Store.withLimit limit).limit)
    (hdeg : ∀ t < P.size, P.inDegree t < BarrierNode.inputLimit) (source : Option Nat) :
    Renders P ((Run.pipeline P.release P.processors P.graph split source).run.run
      (Scheduler.new P.priority (Store.withLimit limit))).2 (schedule P (P.linked source)) := by
  obtain ⟨s₁, hbuild, h₁, hph₁⟩ := Renders.build hsplit hr hp hg hx hroom hdeg
  have hnan : ∀ u, P.Valid u → (P.execTime u).isNaN = false := fun _ => P.execTime_isNaN hx
  have hlist : ∀ {s₂ : Scheduler} {L : List Nat}, Renders P s₂ (L.foldl (start P) (initial P)) →
      s₂.phase = .started → Renders P (Run.listSchedule.run.run s₂).2 (schedule P L) := by
    intro s₂ L h₂ hph₂
    obtain ⟨s₃, h₃, -, hls⟩ := h₂.listSchedule hg hnan hp (Inv.initial.foldl_start hg L) hph₂
    rw [hls]
    split
    · exact h₃.withPhase _
    · exact h₃.withPhase _
  unfold Run.pipeline
  rw [run_bind_ok hbuild]
  cases source with
  | none =>
    obtain ⟨_, s₂, hstart, h₂, hph₂⟩ := (h₁.startEntries hg hph₁).ok fun _ h => h
    dsimp only
    rw [run_bind_ok hstart]
    exact hlist h₂ hph₂
  | some t =>
    dsimp only
    rcases h₁.startSource hg hph₁ t with ⟨_, s₂, hstart, -, -, h₂, hph₂⟩ | ⟨_, s₂, hstart, hnot, h₂⟩
    · rw [run_bind_ok hstart]
      exact hlist h₂ hph₂
    · rw [run_bind_error hstart]
      simpa only [Problem.linked, schedule, List.foldl_cons, List.foldl_nil,
        start_initial_of_not hnot, dispatch_initial] using h₂

/-- The assignments of a whole run with room for it are those of the direct scheduler, in its order
and with its times. -/
theorem assignments_pipeline_eq_schedule (hsplit : P.graph.unitTimes split = P.unitTimes)
    (hr : P.release.isFinite = true) (hp : 0 < P.processors) (hg : P.graph.WellFormed)
    (hx : ∀ t < P.size, ∀ x ∈ P.unitTimes t, x.isValidTime = true)
    (hroom : P.nodeBase + P.totalUnits ≤ (Store.withLimit limit).limit)
    (hdeg : ∀ t < P.size, P.inDegree t < BarrierNode.inputLimit) (source : Option Nat) :
    ((Run.pipeline P.release P.processors P.graph split source).run.run
      (Scheduler.new P.priority (Store.withLimit limit))).2.assignments =
      (schedule P (P.linked source)).log.map Placement.assignment :=
  (Renders.pipeline hsplit hr hp hg hx hroom hdeg source).assignments (Inv.schedule hg _)

/-- Four tasks of one unit each, `1.0` long: the first precedes two others, which both precede
the last. -/
def diamondGraph : TaskGraph :=
  ⟨#[⟨[⟨0x3FF0000000000000⟩], [1, 2]⟩, ⟨[⟨0x3FF0000000000000⟩], [3]⟩,
    ⟨[⟨0x3FF0000000000000⟩], [3]⟩, ⟨[⟨0x3FF0000000000000⟩], []⟩]⟩

/-- The diamond on two processors, released at `0.0`, every unit of priority `0.0`. -/
def Problem.diamond : Problem :=
  ⟨diamondGraph, diamondGraph.unitTimes .subtasks, fun _ => Double.zero, 2, Double.zero⟩

theorem assignments_pipeline_diamond :
    Problem.diamond.nodeBase + Problem.diamond.totalUnits ≤ (Store.withLimit 100).limit ∧
    ((Run.pipeline Problem.diamond.release 2 diamondGraph .subtasks none).run.run
      (Scheduler.new Problem.diamond.priority (Store.withLimit 100))).2.assignments =
      (schedule Problem.diamond Problem.diamond.entries).log.map Placement.assignment :=
  ⟨by decide, assignments_pipeline_eq_schedule rfl (by decide) (by decide)
    (by unfold TaskGraph.WellFormed; decide) (by decide) (by decide) (by decide +kernel) none⟩

/-- One task of two units, `1.0` and `2.0` long, on one processor. -/
def Problem.pair : Problem :=
  ⟨⟨#[⟨[⟨0x3FF0000000000000⟩, ⟨0x4000000000000000⟩], []⟩]⟩,
    (⟨#[⟨[⟨0x3FF0000000000000⟩, ⟨0x4000000000000000⟩], []⟩]⟩ : TaskGraph).unitTimes .subtasks,
    fun _ => Double.zero, 1, Double.zero⟩

/-- Without room the run stops early and makes fewer assignments than on a store of a hundred. -/
theorem assignments_pipeline_depend_on_store :
    ¬ ∀ limit, ((Run.pipeline Problem.pair.release 1 Problem.pair.graph .subtasks none).run.run
      (Scheduler.new Problem.pair.priority (Store.withLimit limit))).2.assignments =
      (schedule Problem.pair Problem.pair.entries).log.map Placement.assignment := by
  intro h
  exact absurd ((h 6).trans (h 100).symm) (by decide +kernel)

end Whole

end Direct

end ListScheduling
