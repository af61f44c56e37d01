import ListScheduling.Proofs.Refinement.Start

/-!
Where a whole run stops.
-/
namespace ListScheduling.Run

variable {α β γ : Type} {s : Scheduler} {e : RunError}

theorem run_bind_fst_error {x : Run α} {f : α → Run γ} (h : (x.run.run s).1 = .error e) :
    ((x >>= f).run.run s).1 = .error e := by
  rw [run_bind_error (Prod.ext h rfl : x.run.run s = (.error e, (x.run.run s).2))]

theorem run_finishStep_fst_error {next : Phase} {x : Run α} (h : (x.run.run s).1 = .error e) :
    ((finishStep next x).run.run s).1 = .error e := by
  rw [run_finishStep_error (Prod.ext h rfl : x.run.run s = (.error e, (x.run.run s).2))]

theorem forIn_fst_error {xs : List β} {f : β → PUnit → Run (ForInStep PUnit)}
    (I : Nat → Scheduler → Prop) (h0 : I 0 s) {j : Nat} (hj : j < xs.length)
    (hstep : ∀ i (hi : i < xs.length), i < j → ∀ s, I i s →
      Returns (f xs[i] ⟨⟩) s (fun _ => False) fun r s' => r = .yield ⟨⟩ ∧ I (i + 1) s')
    (hfail : ∀ s, I j s → ((f xs[j] ⟨⟩).run.run s).1 = .error e) :
    ((ForIn.forIn xs ⟨⟩ f).run.run s).1 = .error e := by
  induction xs generalizing I s j with
  | nil => cases hj
  | cons y ys ih =>
    rw [List.forIn_cons]
    cases j with
    | zero => exact run_bind_fst_error (hfail s h0)
    | succ j =>
      obtain ⟨r, s₁, hrun, rfl, h₁⟩ :=
        (hstep 0 (by simp) (Nat.zero_lt_succ j) s h0).ok fun _ h => h
      have hrun' : (f y ⟨⟩).run.run s = (.ok (.yield ⟨⟩), s₁) := hrun
      rw [run_bind_ok hrun']
      exact ih (fun i s => I (i + 1) s) h₁ (by simpa using hj)
        (fun i hi hij s hI => hstep (i + 1) (by simpa using hi) (by omega) s hI) hfail

theorem run_insertRoot_of_not_isFinite {priority : UnitId → Double} {st : Store} {time : Double}
    (hr : time.isFinite = false) :
    (insertRoot time).run.run (Scheduler.new priority st) =
      (.error (.invalidRootTime time), Scheduler.new priority st) := by
  have hroot : (Scheduler.new priority st).root = none := rfl
  have hent : (enter .insertRoot .empty).run.run (Scheduler.new priority st) =
      (.ok (), Scheduler.new priority st) := run_enter rfl (by decide)
  unfold insertRoot
  rw [run_get_bind]
  simp only [hroot, Option.isSome_none, Bool.false_and, Bool.false_eq_true, if_false]
  rw [run_bind_ok hent]
  simp only [hr, Bool.not_false, ↓reduceIte]
  rfl

theorem run_createProcessors_zero (hph : s.phase = .rootInserted) :
    (createProcessors 0).run.run s = (.error .noProcessors, s) := by
  unfold createProcessors
  rw [run_bind_ok (run_enter hph (by decide))]
  rfl

theorem build_of_not_isFinite {priority : UnitId → Double} {st : Store} {time : Double}
    {count : Nat} {g : TaskGraph} {split : Split} (hr : time.isFinite = false) :
    ((build time count g split).run.run (Scheduler.new priority st)).1 =
      .error (.invalidRootTime time) := by
  unfold build
  exact run_bind_fst_error (by rw [run_insertRoot_of_not_isFinite hr])

end ListScheduling.Run

namespace ListScheduling.Direct

open Run

variable {P : Problem} {split : Split} {limit : Nat} {s : Scheduler} {t k : Nat} {x : Double}

theorem build_of_processors_eq_zero (hr : P.release.isFinite = true)
    (hroom : P.nodeBase + P.totalUnits ≤ (Store.withLimit limit).limit) (hp : P.processors = 0) :
    ((Run.build P.release P.processors P.graph split).run.run
      (Scheduler.new P.priority (Store.withLimit limit))).1 = .error .noProcessors := by
  unfold Run.build
  obtain ⟨_, s₁, hrun₁, -, hph₁⟩ :=
    (Building.insertRoot hr hroom (Stage.recording P 0 0)).ok fun _ h => h
  rw [run_bind_ok hrun₁, hp]
  exact run_bind_fst_error (by rw [run_createProcessors_zero hph₁])

section Units

variable {ro : List Nat}

theorem run_unitPass_invalid {bs : TaskBarriers} {time : Double} (hx : x.isValidTime = false) :
    (Run.unitPass bs t time (x, k) ⟨⟩).run.run s = (.error (.task (.invalidExecTime t k x)), s) := by
  simp only [Run.unitPass, hx, Bool.not_false, if_true]
  rfl

/-- The pass of task `t` stops at its first unit whose time is not valid. -/
theorem Building.taskPass_invalid
    (hI : Building P s ((Stage.inserting P t 0).slots P ro (P.unitBase + P.offset t)) ro
      P.taskBarriers)
    (ht : t < P.size) (hsplit : P.graph.unitTimes split = P.unitTimes)
    (hunits : P.totalUnits < BarrierNode.inputLimit)
    (hk : (P.unitTimes t).zipIdx.find? (!·.1.isValidTime) = some (x, k)) :
    ((Run.taskPass P.graph split P.release (⟨P.entryVertex t, P.exitVertex t⟩, t) ⟨⟩).run.run
      s).1 = .error (.task (.invalidExecTime t k x)) := by
  obtain ⟨hpx, i, hi, hxi, hbefore⟩ := List.find?_eq_some_iff_getElem.1 hk
  have hik : i = k := by
    rw [List.getElem_zipIdx] at hxi
    simpa using (Prod.mk.inj hxi).2
  subst hik
  have hne : P.unitTimes t ≠ [] := by
    rintro hnil
    simp [hnil] at hi
  unfold Run.taskPass
  simp only [hsplit]
  rw [if_neg (by simpa [List.isEmpty_iff] using hne)]
  refine run_bind_fst_error (forIn_fst_error (fun k s => Building P s
      ((Stage.inserting P t k).slots P ro (P.unitBase + P.offset t + k)) ro P.taskBarriers) hI hi
    (fun j hj hji s hJ => hJ.unitStep ht hj (by simpa using hbefore j hji) hunits)
    fun s _ => ?_)
  rw [hxi, run_unitPass_invalid (by simpa using hpx)]

theorem Building.insertTasks_invalid
    (h : Building P s ((Stage.inserting P 0 0).slots P ro P.unitBase) ro P.taskBarriers)
    (hroot : s.store.slots[0]? = some ⟨.root P.release, ro.toArray⟩)
    (hph : s.phase = .constraintsInserted) (hsplit : P.graph.unitTimes split = P.unitTimes)
    (hunits : P.totalUnits < BarrierNode.inputLimit) (ht : t < P.size)
    (hbefore : ∀ t' < t, ∀ y ∈ P.unitTimes t', y.isValidTime = true)
    (hk : (P.unitTimes t).zipIdx.find? (!·.1.isValidTime) = some (x, k)) :
    ((Run.insertTasks P.graph split).run.run s).1 = .error (.task (.invalidExecTime t k x)) := by
  rw [Run.insertTasks_eq, run_bind_ok (run_enter hph (by decide))]
  refine run_finishStep_fst_error ?_
  rw [run_bind_ok (run_rootVertex h.root hroot)]
  dsimp only
  rw [run_get_bind, h.barriers]
  have hlen : t < P.taskBarriers.zipIdx.length := by simpa [Problem.taskBarriers] using ht
  refine run_bind_fst_error (forIn_fst_error (fun t s => Building P s
      ((Stage.inserting P t 0).slots P ro (P.unitBase + P.offset t)) ro P.taskBarriers)
    (by simpa [Problem.offset] using h) hlen (fun i hi hit s hI => ?_) fun s hI => ?_)
  · have hi' : i < P.size := by simpa [Problem.taskBarriers] using hi
    rw [P.getElem_zipIdx_taskBarriers hi]
    exact hI.taskPass hi' hsplit (hbefore i hit) hunits
  · rw [P.getElem_zipIdx_taskBarriers hlen]
    exact hI.taskPass_invalid ht hsplit hunits hk

theorem build_of_invalid (hsplit : P.graph.unitTimes split = P.unitTimes)
    (hr : P.release.isFinite = true) (hp : 0 < P.processors) (hg : P.graph.WellFormed)
    (hroom : P.nodeBase + P.totalUnits ≤ (Store.withLimit limit).limit)
    (hdeg : ∀ t < P.size, P.inDegree t < BarrierNode.inputLimit) (ht : t < P.size)
    (hbefore : ∀ t' < t, ∀ y ∈ P.unitTimes t', y.isValidTime = true)
    (hk : (P.unitTimes t).zipIdx.find? (!·.1.isValidTime) = some (x, k)) :
    ((Run.build P.release P.processors P.graph split).run.run
      (Scheduler.new P.priority (Store.withLimit limit))).1 =
      .error (.task (.invalidExecTime t k x)) := by
  obtain ⟨s₃, hrun, h₃, hroot₃, hph₃⟩ := @Building.constrained _ split hr hp hg _ hroom hdeg
  rw [hrun]
  exact h₃.insertTasks_invalid hroot₃ hph₃ hsplit (P.totalUnits_lt_inputLimit hroom) ht hbefore hk

end Units

theorem Renders.start_waiting (h : Renders P s (initial P)) (hph : s.phase = .tasksInserted)
    (ht : t < P.size) (hd : P.inDegree t ≠ 0) :
    ((Run.start t).run.run s).1 = .error (.rootBarrierNotReady (P.entryVertex t) (P.inDegree t)) := by
  obtain ⟨s', hrun, -⟩ := h.linkEntries_waiting ht hd
  unfold Run.start
  rw [run_bind_ok (run_enter hph (by decide)), run_get_bind, h.barrier_at ht]
  exact run_finishStep_fst_error (by rw [hrun])

end ListScheduling.Direct
