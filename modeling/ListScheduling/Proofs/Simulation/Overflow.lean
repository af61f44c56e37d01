import ListScheduling.Proofs.Simulation.Errors
import ListScheduling.Proofs.Scheduler.Law

/-!
A store that the processors fill.
-/
namespace ListScheduling

namespace Run

/-- The limit of the store, which no block changes. -/
def limitKept : Law where
  inv _ := True
  rel s s' := s'.store.limit = s.store.limit
  refl _ _ := rfl
  trans h₁ h₂ := h₂.trans h₁
  inv_of_rel _ := trivial
  poison h := h

theorem limitKept_addVertex (n : Node) : Respects limitKept (addVertex n) := by
  intro s _
  by_cases h : s.store.size < s.store.limit
  · rw [run_addVertex n h]
    rfl
  · rw [run_addVertex_full n (Nat.not_lt.1 h)]
    rfl

theorem limitKept_recordEdge (fk tk : NodeKind) (src dst : Nat) :
    Respects limitKept (recordEdge fk tk src dst) :=
  Respects.get.bind fun _ => (Respects.liftStore _).bind fun _ =>
    (Respects.modify fun _ _ => rfl).bind fun _ => Respects.modify fun _ _ => rfl

theorem limitKept_insertRoot (time : Double) : Respects limitKept (insertRoot time) := by
  unfold insertRoot
  refine Respects.get.bind fun s => ?_
  dsimp only
  split
  · exact (Respects.modify fun _ _ => rfl).bind fun _ => Respects.throw_bind _ _
  · refine (Respects.enter _ _).bind fun _ => ?_
    split
    · exact Respects.throw_bind _ _
    · refine Respects.finishStep ((limitKept_addVertex _).bind fun _ => ?_) fun h => h
      exact (Respects.modify fun _ _ => rfl).bind fun _ => Respects.pure _

theorem limitKept_processorPass (i r : Nat) (time : Double) :
    Respects limitKept (do
      let node ← Run.addVertex (.processor ⟨i, time, false⟩)
      addEdge .root .processor r node
      modify fun s : Scheduler => { s with processors := s.processors.push node }
      pure (ForInStep.yield ⟨⟩) : Run (ForInStep PUnit)) :=
  (limitKept_addVertex _).bind fun _ =>
    (((limitKept_recordEdge _ _ _ _).bind fun _ => Respects.pure ()).guarded).bind fun _ =>
      (Respects.modify fun _ _ => rfl).bind fun _ => Respects.pure _

end Run

namespace Direct

open Run

variable {P : Problem}

/-- The construction asked for as many processors as its store holds vertices stops at the
last processor with an overflow: the root and the processors before it fill the store. -/
theorem build_of_processors_fill (hr : P.release.isFinite = true) (hp : 0 < P.processors)
    (hlim : P.processors ≤ maxVertices) (split : Split) :
    ((Run.build P.release P.processors P.graph split).run.run
      (Scheduler.new P.priority (Store.withLimit P.processors))).1 =
      .error (.store (.overflow P.processors)) := by
  let Q : Problem := ⟨{}, fun _ => [], P.priority, P.processors - 1, P.release⟩
  have hlimit : (Store.withLimit P.processors).limit = P.processors := Nat.min_eq_left hlim
  have hroom : Q.nodeBase + Q.totalUnits ≤ (Store.withLimit P.processors).limit := by
    simp only [Problem.nodeBase, Problem.unitBase, Problem.totalUnits, Problem.size,
      TaskGraph.size, hlimit]
    simp [Q]
    omega
  obtain ⟨_, s₁, hrun₁, h₁, hph₁⟩ :=
    (Building.insertRoot (P := Q) hr hroom (Stage.recording Q 0 0)).ok fun _ h => h
  have hlim₁ : s₁.store.limit = P.processors := by
    have h := limitKept_insertRoot P.release (Scheduler.new P.priority (Store.withLimit P.processors))
      trivial
    rw [hrun₁] at h
    exact h.trans hlimit
  have hroot : s₁.store.slots[0]? = some ⟨.root P.release, #[]⟩ := by
    rw [h₁.getElem? 0]
    rfl
  unfold Run.build
  rw [run_bind_ok hrun₁]
  refine run_bind_fst_error ?_
  unfold Run.createProcessors
  rw [run_bind_ok (run_enter hph₁ (by decide))]
  simp only [Nat.pos_iff_ne_zero.1 hp, if_false]
  refine run_finishStep_fst_error ?_
  rw [run_bind_ok (run_rootVertex h₁.root hroot)]
  dsimp only
  rw [Std.Legacy.Range.forIn_eq_forIn_range']
  have hrange : List.range' [:P.processors].start [:P.processors].size [:P.processors].step =
      List.range P.processors := by
    simp [Std.Legacy.Range.size, List.range_eq_range']
  rw [hrange]
  refine run_bind_fst_error (forIn_fst_error (fun i s => Building Q s
      ((Stage.recording Q 0 0).slots Q ((List.range i).map (· + 1)) (i + 1))
      ((List.range i).map (· + 1)) [] ∧ s.store.limit = P.processors) ⟨h₁, hlim₁⟩
    (j := P.processors - 1) (by simp; omega) (fun i hi hij s hI => ?_) fun s hI => ?_)
  · rw [List.getElem_range]
    obtain ⟨s', hrun, hB⟩ := hI.1.processor (i := i) hij
    have hkept : s'.store.limit = s.store.limit := by
      have h := limitKept_processorPass i 0 P.release s trivial
      rw [hrun] at h
      exact h
    refine Returns.of_ok hrun ⟨rfl, ?_, hkept.trans hI.2⟩
    rw [List.range_succ, List.map_append, List.map_singleton]
    exact hB
  · rw [List.getElem_range]
    have hfull : s.store.limit ≤ s.store.size := by
      rw [hI.1.size, Stage.length_slots, hI.2]
      omega
    rw [run_bind_error (run_addVertex_full _ hfull), hI.2]

end Direct

namespace SimulationConfig

variable {config : SimulationConfig} {q : UnitId → Double}

theorem steps_of_processors_fill (hr : config.rootTime.isFinite = true)
    (hp : config.processors = maxVertices) (specs : List TaskSpec) (ns : TaskNames) :
    ((config.steps (TaskSpec.graph specs) ns).run.run (Scheduler.new q {})).1 =
      .error (.store (.overflow maxVertices)) := by
  have hpos : 0 < config.processors := by
    rw [hp]
    decide
  unfold steps
  rw [← withLimit_maxVertices, ← hp]
  exact Run.run_bind_fst_error
    (Direct.build_of_processors_fill (P := config.problem specs q) hr hpos (Nat.le_of_eq hp) _)

end SimulationConfig

theorem TaskSpec.accepted_nil : TaskSpec.Accepted [] := by
  refine ⟨List.nodup_nil, by simp, by simp, ?_⟩
  rintro ⟨t, h⟩
  have hstep : ∀ a, ¬ TaskSpec.Precedes [] a t := by
    rintro a ⟨ha, -⟩
    exact Nat.not_lt_zero a ha
  cases h with
  | single hp => exact hstep t hp
  | tail _ hp => exact hstep _ hp

end ListScheduling
