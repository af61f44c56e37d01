import ListScheduling.Proofs.Scheduler.Onward
import ListScheduling.Proofs.Scheduler.Phases

/-!
The times of a run driven by its steps from a root at a finite time `r`.
-/
namespace ListScheduling

namespace Node

variable {r : Double}

theorem sound_unit_new {id : UnitId} {x t : Double} (hx : x.isValidTime = true) (ht : r.le t) :
    (Node.unit (UnitNode.new id x t)).Sound r :=
  ⟨hx, ht, rfl⟩

theorem sound_barrier_new {t : Double} (ht : r.le t) : (Node.barrier (BarrierNode.new t)).Sound r :=
  ⟨ht, rfl, nofun⟩

end Node

namespace Run

open Scheduler

variable {r : Double}

theorem respects_finishStep {α : Type} {next : Phase} {x : Run α} (hx : Respects (onward r) x) :
    Respects (onward r) (finishStep next x) :=
  Respects.finishStep hx fun h => h.congr rfl rfl

theorem respects_insertRoot {t : Double} (ht : r.le t) : Respects (onward r) (insertRoot t) := by
  unfold insertRoot
  refine Respects.get.bind fun s => ?_
  dsimp only
  split
  · exact respects_poison.bind fun _ => Respects.throw_bind _ _
  · refine (Respects.enter _ _).bind fun _ => ?_
    split
    · exact Respects.throw_bind _ _
    · refine respects_finishStep ((respects_addVertex (n := .root t) ht).bind fun _ => ?_)
      exact (respects_modify (fun _ => by rfl) fun _ => by rfl).bind fun _ => Respects.pure _

theorem respects_createProcessors (count : Nat) : Respects (onward r) (createProcessors count) := by
  unfold createProcessors
  refine (Respects.enter _ _).bind fun _ => ?_
  dsimp only
  split
  · exact Respects.throw_bind _ _
  · refine respects_finishStep (respects_rootVertex_bind fun root time ht => ?_)
    dsimp only
    rw [Std.Legacy.Range.forIn_eq_forIn_range']
    refine (Respects.forIn fun i _ => ?_).bind fun _ => Respects.pure _
    refine (respects_addVertex (n := .processor ⟨i, time, false⟩) ht).bind fun node => ?_
    refine (respects_addEdge fun _ => by trivial).bind fun _ => ?_
    exact (respects_modify (fun _ => by rfl) fun _ => by rfl).bind fun _ => Respects.pure _

theorem respects_insertConstraints (g : TaskGraph) : Respects (onward r) (insertConstraints g) := by
  unfold insertConstraints
  refine (Respects.enter _ _).bind fun _ => respects_finishStep ?_
  refine respects_rootVertex_bind fun _ time ht => ?_
  refine (Respects.forIn fun _ _ => ?_).bind fun _ =>
    (Respects.forIn fun _ _ => ?_).bind fun _ => Respects.pure _
  · refine (respects_addVertex (Node.sound_barrier_new ht)).bind fun _ => ?_
    refine (respects_addVertex (Node.sound_barrier_new ht)).bind fun _ => ?_
    exact (respects_modify (fun _ => by rfl) fun _ => by rfl).bind fun _ => Respects.pure _
  · refine Respects.get.bind fun _ => (Respects.forIn fun _ _ => Respects.get.bind fun _ => ?_).bind
      fun _ => Respects.pure _
    split
    · exact (Respects.throw _).bind fun _ => Respects.pure _
    · exact (respects_addEdge fun _ => by trivial).bind fun _ => Respects.pure _

theorem respects_addUnit {id : UnitId} {x t : Double} (hx : x.isValidTime = true) (ht : r.le t)
    (entry : Nat) {β : Type} {f : Nat → Run β} (hf : ∀ unit, Respects (onward r) (f unit)) :
    Respects (onward r) (addVertex (.unit (UnitNode.new id x t)) >>= fun unit =>
      addEdge .barrier .unit entry unit >>= fun _ => f unit) := by
  intro s (hs : s.Sound r [])
  refine Respects.bind_at (respects_addVertex (Node.sound_unit_new hx ht)) hs fun unit s₁ h h₁ => ?_
  -- the unit just added is idle, so the entry may release it
  have hidle : s₁.Idle unit := idle_addVertex hs (fun _ hu => by cases hu; rfl) h
  exact Law.bind_at (L := onward r) (onward_addEdge h₁.1 hidle) fun _ s₂ _ h₂ => hf unit s₂ h₂.1

theorem respects_insertTasks (g : TaskGraph) (split : Split) :
    Respects (onward r) (insertTasks g split) := by
  unfold insertTasks
  refine (Respects.enter _ _).bind fun _ => respects_finishStep ?_
  refine respects_rootVertex_bind fun _ time ht => Respects.get.bind fun _ => ?_
  refine (Respects.forIn fun ⟨bs, t⟩ _ => ?_).bind fun _ => Respects.pure _
  dsimp only
  split
  · exact (respects_addEdge fun _ => by trivial).bind fun _ => Respects.pure _
  · refine (Respects.forIn fun ⟨x, k⟩ _ => ?_).bind fun _ => Respects.pure _
    dsimp only
    split
    · exact Respects.throw_bind _ _
    · rename_i hx
      have hx : x.isValidTime = true := by simpa using hx
      exact respects_addUnit hx ht bs.entry fun _ =>
        (respects_addEdge fun _ => by trivial).bind fun _ => Respects.pure _

theorem respects_linkEntries (entries : List Nat) : Respects (onward r) (linkEntries entries) := by
  refine respects_rootVertex.bind fun ⟨root, _⟩ => ?_
  exact (Respects.forIn fun _ _ => (respects_addEdge fun _ => by trivial).bind fun _ =>
    Respects.pure _).bind fun _ => Respects.pure _

theorem respects_start (task : Nat) : Respects (onward r) (start task) := by
  unfold start
  refine (Respects.enter _ _).bind fun _ => Respects.get.bind fun _ => ?_
  split
  · exact Respects.throw _
  · exact respects_finishStep (respects_linkEntries _)

theorem respects_startEntries : Respects (onward r) startEntries := by
  unfold startEntries
  refine (Respects.enter _ _).bind fun _ => Respects.get.bind fun _ => ?_
  refine (Respects.filterMapM fun _ => (Respects.liftStore _).bind fun _ => Respects.pure _).bind
    fun _ => ?_
  exact respects_finishStep (respects_linkEntries _)

theorem respects_listSchedule : Respects (onward r) listSchedule := by
  unfold listSchedule
  refine (Respects.enter _ _).bind fun _ => respects_finishStep ?_
  refine Respects.get.bind fun _ => (respects_dispatchWith _).bind fun _ => Respects.get.bind fun _ => ?_
  dsimp only
  split
  · exact Respects.throw _
  · exact Respects.pure _

end Run

theorem Scheduler.Sound.new {r : Double} (priority : UnitId → Double) (limit : Nat) :
    (Scheduler.new priority (Store.withLimit limit)).Sound r [] where
  nodes _ _ h := by simp [Scheduler.new, Store.withLimit] at h
  closed _ _ h := by simp [Scheduler.new, Store.withLimit] at h
  fed _ := fun ⟨_, h, _⟩ => by simp [Scheduler.new, Store.withLimit] at h
  placed _ _ _ h := by simp [Scheduler.new, Store.withLimit] at h
  queued _ h := by simp [Scheduler.new] at h

namespace Command

open Run Scheduler

variable {r : Double} {s : Scheduler}

theorem onward_run (h : s.Coherent) (hs : s.Sound r []) (hph : s.phase ≠ .empty) (c : Command) :
    s.Onward r (c.run.run.run s).2 := by
  cases c with
  | insertRoot t =>
    by_cases hp : s.phase = .poisoned
    · rw [run_poisoned hp]
      exact .refl hs
    · rw [run_misplaced (c := .insertRoot t) h hp hph]
      exact (Onward.refl hs).congr rfl rfl
  | createProcessors count => exact respects_createProcessors count s hs
  | insertConstraints g => exact respects_insertConstraints g s hs
  | insertTasks g split => exact respects_insertTasks g split s hs
  | start task => exact respects_start task s hs
  | startEntries => exact respects_startEntries s hs
  | listSchedule => exact respects_listSchedule s hs

theorem next_ne_empty (c : Command) : c.next ≠ .empty := by
  cases c <;> nofun

theorem phase_ne_empty (h : s.Coherent) (hph : s.phase ≠ .empty) (c : Command) :
    (c.run.run.run s).2.phase ≠ .empty := by
  have ho := (obeys h c).1
  unfold Obeys at ho
  split at ho
  · rw [ho]
    exact hph
  split at ho
  · rw [ho]
    cases c <;> simp [misplaced, hph]
  split at ho
  · rw [ho]
    exact hph
  split at ho
  · rw [ho]
    exact next_ne_empty c
  · rw [ho]
    decide

end Command

/-- The states a run reaches by its steps from a root at time `r`: the root, added to a fresh run
over an empty store, then any steps, in any order and with any arguments. -/
inductive Pipeline (r : Double) : Scheduler → Prop
  | root (priority : UnitId → Double) (limit : Nat) :
      Pipeline r ((Command.insertRoot r).run.run.run (Scheduler.new priority (Store.withLimit limit))).2
  | step {s : Scheduler} (c : Command) : Pipeline r s → Pipeline r (c.run.run.run s).2

namespace Pipeline

open Run Scheduler

variable {r : Double} {s : Scheduler}

theorem reachable (h : Pipeline r s) : Reachable s := by
  induction h with
  | root priority limit => exact (Reachable.new _ _).call (.command _)
  | step c _ ih => exact ih.call (.command c)

theorem sound (hr : r.isFinite = true) (h : Pipeline r s) : s.Sound r [] ∧ s.phase ≠ .empty := by
  induction h with
  | root priority limit =>
    have hrr : r.le r := Double.le_refl_of_not_isNaN (Double.not_isNaN_of_isFinite hr)
    refine ⟨((respects_insertRoot hrr).bind fun _ => Respects.pure _) _ (Sound.new priority limit) |>.1, ?_⟩
    -- the root passes its checks, so the step moves the run on or poisons it
    have hq : (Command.insertRoot r).refusal (Scheduler.new priority (Store.withLimit limit)) = none := by
      simp [Command.refusal, hr]
    rcases Command.returns (Coherent.new priority (Store.withLimit limit)) rfl hq with
      ⟨_, _, hrun, hph, -⟩ | ⟨_, _, hrun, hph, -⟩
    · rw [hrun, hph]
      exact Command.next_ne_empty _
    · rw [hrun, hph]
      decide
  | step c h ih =>
    exact ⟨(Command.onward_run h.reachable.coherent ih.1 ih.2 c).1,
      Command.phase_ne_empty h.reachable.coherent ih.2 c⟩

theorem onward (hr : r.isFinite = true) (h : Pipeline r s) (c : Command) :
    s.Onward r (c.run.run.run s).2 :=
  Command.onward_run h.reachable.coherent (h.sound hr).1 (h.sound hr).2 c

/-- In every state the steps reach from a root at a finite time `r`, every time is at least `r`, and
no step moves one back. -/
theorem times_advance (hr : r.isFinite = true) (h : Pipeline r s) :
    s.store.Timed r ∧ ∀ c : Command, s.store.Advances (c.run.run.run s).2.store :=
  ⟨(h.sound hr).1.timed, fun c => (h.onward hr c).2⟩

/-- A run of one task through every step of the pipeline, and the same run once a second root
poisons it. -/
theorem times_advance_after_schedule : Double.zero.isFinite = true ∧ scheduledRun.phase = .done ∧
    scheduledRun.store.Timed Double.zero ∧
      (∀ c : Command, scheduledRun.store.Advances (c.run.run.run scheduledRun).2.store) ∧
    let s := ((Command.insertRoot Double.zero).run.run.run scheduledRun).2
    s.phase = .poisoned ∧ s.store.Timed Double.zero ∧
      ∀ c : Command, s.store.Advances (c.run.run.run s).2.store := by
  have hr : Double.zero.isFinite = true := by decide
  have h : Pipeline Double.zero scheduledRun :=
    .step _ (.step _ (.step _ (.step _ (.step _ (.root _ _)))))
  exact ⟨hr, by decide +kernel, (times_advance hr h).1, (times_advance hr h).2, by decide +kernel,
    times_advance hr (.step _ h)⟩

end Pipeline

end ListScheduling
