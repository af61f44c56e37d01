import ListScheduling.Proofs.Scheduler.Frame
import ListScheduling.Scheduler.Plan

/-!
The phase rules of a run.
-/
namespace ListScheduling

/-- A step of the pipeline, with its arguments. -/
inductive Command where
  | insertRoot (time : Double)
  | createProcessors (count : Nat)
  | insertConstraints (g : TaskGraph)
  | insertTasks (g : TaskGraph) (split : Split)
  | start (task : Nat)
  | startEntries
  | listSchedule

namespace Command

/-- The name of the step in messages. -/
def step : Command → Step
  | .insertRoot _ => .insertRoot
  | .createProcessors _ => .createProcessors
  | .insertConstraints _ => .insertConstraints
  | .insertTasks _ _ => .insertTasks
  | .start _ | .startEntries => .start
  | .listSchedule => .listSchedule

/-- The phase the step runs in. -/
def phase : Command → Phase
  | .insertRoot _ => .empty
  | .createProcessors _ => .rootInserted
  | .insertConstraints _ => .processorsCreated
  | .insertTasks _ _ => .constraintsInserted
  | .start _ | .startEntries => .tasksInserted
  | .listSchedule => .started

/-- The phase a successful step leaves, one place further along the pipeline. -/
def next : Command → Phase
  | .insertRoot _ => .rootInserted
  | .createProcessors _ => .processorsCreated
  | .insertConstraints _ => .constraintsInserted
  | .insertTasks _ _ => .tasksInserted
  | .start _ | .startEntries => .started
  | .listSchedule => .done

/-- The step itself; the index of the root is dropped. -/
def run : Command → Run Unit
  | .insertRoot time => do let _ ← Run.insertRoot time
  | .createProcessors count => Run.createProcessors count
  | .insertConstraints g => Run.insertConstraints g
  | .insertTasks g split => Run.insertTasks g split
  | .start task => Run.start task
  | .startEntries => Run.startEntries
  | .listSchedule => Run.listSchedule

/-- The checks of its arguments a step makes in its phase before it changes anything. -/
def refusal (s : Scheduler) : Command → Option RunError
  | .insertRoot time => if time.isFinite then none else some (.invalidRootTime time)
  | .createProcessors count => if count = 0 then some .noProcessors else none
  | .start task => if s.barriers[task]?.isNone then some (.task (.unknownTask task)) else none
  | _ => none

/-- A step called out of its phase: a second root poisons the run, any other step reports the
phase and changes nothing. -/
def misplaced (s : Scheduler) : Command → Except RunError Unit × Scheduler
  | .insertRoot _ => (.error .rootAlreadyInserted, { s with phase := .poisoned })
  | c => (.error (.stepOutOfOrder c.step s.phase), s)

/-- The phase rules of a step called in state `s` that ends with outcome `out`. -/
def Obeys (c : Command) (s : Scheduler) (out : Except RunError Unit × Scheduler) : Prop :=
  if s.phase = .poisoned then out = (.error .poisoned, s)
  else if s.phase ≠ c.phase then out = c.misplaced s
  else match c.refusal s with
    | some e => out = (.error e, s)
    | none => match out.1 with
      | .ok _ => out.2.phase = c.next
      | .error _ => out.2.phase = .poisoned

end Command

/-- A call on a run: a step, or an edit through the sink. -/
inductive Call where
  | command (c : Command)
  | addVertex (n : Node)
  | addEdge (fk tk : NodeKind) (src dst : Nat)

namespace Call

/-- The call itself; the index of a new vertex is dropped. -/
def run : Call → Run Unit
  | .command c => c.run
  | .addVertex n => do let _ ← Run.addVertex n
  | .addEdge fk tk src dst => Run.addEdge fk tk src dst

/-- The phase rules of a call: a step obeys its own, and a failed edit poisons the run. -/
def Obeys : Call → Scheduler → Except RunError Unit × Scheduler → Prop
  | .command c, s, out => c.Obeys s out
  | _, _, (.ok _, _) => True
  | _, _, (.error _, s') => s'.phase = .poisoned

/-- The states left by the calls in turn. -/
def runAll (calls : List Call) (s : Scheduler) : Scheduler :=
  calls.foldl (fun s c => (c.run.run.run s).2) s

end Call

/-- The states a run reaches by calls from a fresh scheduler over any store. -/
inductive Reachable : Scheduler → Prop
  | new (priority : UnitId → Double) (store : Store) : Reachable (Scheduler.new priority store)
  | call {s : Scheduler} (c : Call) : Reachable s → Reachable (c.run.run.run s).2

theorem Reachable.runAll {s : Scheduler} (h : Reachable s) (calls : List Call) :
    Reachable (Call.runAll calls s) := by
  induction calls generalizing s with
  | nil => exact h
  | cons c calls ih => exact ih (h.call c)

/-! Coherent states. -/

/-- What every reachable state keeps: it has a root exactly when its phase is past `empty`,
a poisoned run aside, and the entry of every task is a barrier vertex. -/
structure Scheduler.Coherent (s : Scheduler) : Prop where
  unrooted : s.phase = .empty → s.root = none
  rooted : s.phase ≠ .empty → s.phase ≠ .poisoned → ∃ r, s.root = some r
  placed : s.EntriesPlaced

namespace Scheduler.Coherent

variable {s s₀ : Scheduler}

theorem new (priority : UnitId → Double) (store : Store) : (Scheduler.new priority store).Coherent where
  unrooted _ := rfl
  rooted h := absurd rfl h
  placed _ h := by simp [Scheduler.new] at h

theorem frame (h : s.Coherent) (hf : s.Frame s₀) : s₀.Coherent where
  unrooted h₀ := by
    rcases hf.phase with hp | hp
    · rw [hf.root]
      exact h.unrooted (hp ▸ h₀)
    · rw [hp] at h₀
      cases h₀
  rooted h₀ h₁ := by
    rcases hf.phase with hp | hp
    · rw [hf.root]
      exact h.rooted (hp ▸ h₀) (hp ▸ h₁)
    · exact absurd hp h₁
  placed := hf.placed h.placed

theorem poisoned (h : s.Coherent) (hf : s.Frame s₀) : { s₀ with phase := .poisoned }.Coherent :=
  h.frame hf.poisoned

theorem advance (h : s.Coherent) (he : s.phase ≠ .empty) (hp : s.phase ≠ .poisoned)
    (hf : s.Frame s₀) {next : Phase} (hn : next ≠ .empty) : { s₀ with phase := next }.Coherent where
  unrooted h₀ := absurd h₀ hn
  rooted _ _ := hf.root ▸ h.rooted he hp
  placed := (h.frame hf).placed

theorem finishStep {α : Type} (h : s.Coherent) (he : s.phase ≠ .empty) (hp : s.phase ≠ .poisoned)
    {next : Phase} (hn : next ≠ .empty) {x : Run α} (hx : Run.Framed x) :
    Run.Returns (Run.finishStep next x) s (fun s' => s'.phase = .poisoned ∧ s'.Coherent)
      fun _ s' => s'.phase = next ∧ s'.Coherent :=
  ((hx.returns trivial).finishStep).mono (fun _ _ ⟨_, hf, hs⟩ => hs ▸ ⟨rfl, h.advance he hp hf hn⟩)
    fun _ ⟨_, hf, hs⟩ => hs ▸ ⟨rfl, h.poisoned hf⟩

theorem rootInserted (h : s.Coherent) (hf : s.Frame s₀) {r : Nat} :
    { { s₀ with root := some r } with phase := .rootInserted }.Coherent where
  unrooted h₀ := by cases h₀
  rooted _ _ := ⟨r, rfl⟩
  placed := (h.frame hf).placed

end Scheduler.Coherent

namespace Run

open Scheduler

variable {α : Type} {s : Scheduler}

theorem run_enter_poisoned {step : Step} {expected : Phase} (h : s.phase = .poisoned) :
    (enter step expected).run.run s = (.error .poisoned, s) := by
  simp only [enter, run_get_bind, h]
  rfl

theorem run_enter_misplaced {step : Step} {expected : Phase} (h : s.phase ≠ .poisoned)
    (hne : s.phase ≠ expected) :
    (enter step expected).run.run s = (.error (.stepOutOfOrder step s.phase), s) := by
  unfold enter
  rw [run_get_bind]
  split
  · rename_i hp
    exact absurd hp h
  · rw [if_neg hne]
    rfl

theorem phase_of_guarded_error {x : Run α} {e : RunError} {s' : Scheduler}
    (h : (guarded x).run.run s = (.error e, s')) : s'.phase = .poisoned := by
  rcases hx : x.run.run s with ⟨e' | a, s₁⟩
  · rw [run_guarded_error hx] at h
    cases h
    rfl
  · rw [run_guarded_ok hx] at h
    cases h

/-! Each step, called in its phase with arguments that pass its checks. -/

section Steps

variable (h : s.Coherent)
include h

theorem returns_insertRoot (hph : s.phase = .empty) {time : Double} (ht : time.isFinite = true) :
    Returns (insertRoot time) s (fun s' => s'.phase = .poisoned ∧ s'.Coherent)
      fun _ s' => s'.phase = .rootInserted ∧ s'.Coherent := by
  unfold insertRoot
  refine Returns.bind_ok (run_get s) ?_
  simp only [h.unrooted hph, Option.isSome_none, Bool.false_and, Bool.false_eq_true, if_false]
  refine Returns.bind_ok (run_enter hph (by decide)) ?_
  simp only [ht, Bool.not_true, Bool.false_eq_true, if_false]
  refine (Returns.finishStep (E := s.Frame)
    (Q := fun r s' => ∃ s₁, s.Frame s₁ ∧ s' = { s₁ with root := some r }) ?_).mono ?_ ?_
  · exact Returns.bind ((framed_addVertex _).returns trivial) fun r s₁ hf => Returns.of_ok rfl ⟨s₁, hf, rfl⟩
  · rintro _ _ ⟨_, ⟨s₁, hf, rfl⟩, rfl⟩
    exact ⟨rfl, h.rootInserted hf⟩
  · rintro _ ⟨s₀, hf, rfl⟩
    exact ⟨rfl, h.poisoned hf⟩

theorem returns_createProcessors (hph : s.phase = .rootInserted) {n : Nat} (hn : n ≠ 0) :
    Returns (createProcessors n) s (fun s' => s'.phase = .poisoned ∧ s'.Coherent)
      fun _ s' => s'.phase = .processorsCreated ∧ s'.Coherent := by
  unfold createProcessors
  refine Returns.bind_ok (run_enter hph (by decide)) ?_
  simp only [hn, if_false]
  refine h.finishStep (by simp [hph]) (by simp [hph]) (by decide) ?_
  refine respects_rootVertex.bind fun _ => ?_
  rw [Std.Legacy.Range.forIn_eq_forIn_range']
  refine (Respects.forIn fun _ _ => (framed_addVertex _).bind fun _ => (framed_addEdge _ _ _ _).bind
    fun _ => (Respects.modify fun _ _ => ?_).bind fun _ => Respects.pure _).bind fun _ => Respects.pure _
  -- a new processor node changes only the list of processors
  exact .of_keeps (.refl _) rfl rfl rfl

theorem returns_insertConstraints (hph : s.phase = .processorsCreated) (g : TaskGraph) :
    Returns (insertConstraints g) s (fun s' => s'.phase = .poisoned ∧ s'.Coherent)
      fun _ s' => s'.phase = .constraintsInserted ∧ s'.Coherent := by
  unfold insertConstraints
  refine Returns.bind_ok (run_enter hph (by decide)) ?_
  refine h.finishStep (by simp [hph]) (by simp [hph]) (by decide) ?_
  refine respects_rootVertex.bind fun ⟨_, time⟩ => ?_
  refine (Respects.forIn fun _ _ => ?_).bind fun _ =>
    (Respects.forIn fun _ _ => ?_).bind fun _ => Respects.pure _
  · intro s₀ _
    refine Respects.bind_at (framed_addVertex _) trivial fun entry s₁ h₁ _ => ?_
    refine Respects.bind_at (framed_addVertex _) trivial fun exit s₂ h₂ hf => ?_
    simp only [run_modify_bind, run_pure]
    exact Scheduler.Frame.pushBarriers (hf.keeps.hasKind (hasKind_addVertex h₁))
  · refine Respects.get.bind fun _ => (Respects.forIn fun _ _ => Respects.get.bind fun _ => ?_).bind
      fun _ => Respects.pure _
    split
    · exact (Respects.throw _).bind fun _ => Respects.pure _
    · exact (framed_addEdge _ _ _ _).bind fun _ => Respects.pure _

theorem returns_insertTasks (hph : s.phase = .constraintsInserted) (g : TaskGraph) (split : Split) :
    Returns (insertTasks g split) s (fun s' => s'.phase = .poisoned ∧ s'.Coherent)
      fun _ s' => s'.phase = .tasksInserted ∧ s'.Coherent := by
  unfold insertTasks
  refine Returns.bind_ok (run_enter hph (by decide)) ?_
  refine h.finishStep (by simp [hph]) (by simp [hph]) (by decide) ?_
  refine respects_rootVertex.bind fun ⟨_, time⟩ => Respects.get.bind fun _ => ?_
  refine (Respects.forIn fun ⟨bs, t⟩ _ => ?_).bind fun _ => Respects.pure _
  dsimp only
  split
  · exact (framed_addEdge _ _ _ _).bind fun _ => Respects.pure _
  · refine (Respects.forIn fun ⟨x, k⟩ _ => ?_).bind fun _ => Respects.pure _
    dsimp only
    split
    · exact (Respects.throw _).bind fun _ => (framed_addVertex _).bind fun _ =>
        (framed_addEdge _ _ _ _).bind fun _ => (framed_addEdge _ _ _ _).bind fun _ => Respects.pure _
    · exact (framed_addVertex _).bind fun _ =>
        (framed_addEdge _ _ _ _).bind fun _ => (framed_addEdge _ _ _ _).bind fun _ => Respects.pure _

theorem returns_start (hph : s.phase = .tasksInserted) {task : Nat} {bs : TaskBarriers}
    (hb : s.barriers[task]? = some bs) :
    Returns (start task) s (fun s' => s'.phase = .poisoned ∧ s'.Coherent)
      fun _ s' => s'.phase = .started ∧ s'.Coherent := by
  unfold start
  refine Returns.bind_ok (run_enter hph (by decide)) ?_
  refine Returns.bind_ok (run_get s) ?_
  simp only [hb]
  exact h.finishStep (by simp [hph]) (by simp [hph]) (by decide) (framed_linkEntries _)

theorem returns_startEntries (hph : s.phase = .tasksInserted) :
    Returns startEntries s (fun s' => s'.phase = .poisoned ∧ s'.Coherent)
      fun _ s' => s'.phase = .started ∧ s'.Coherent := by
  unfold startEntries
  refine Returns.bind_ok (run_enter hph (by decide)) ?_
  refine Returns.bind_ok (run_get s) ?_
  -- every entry is a barrier vertex, so reading the entries cannot fail
  refine Returns.bind_ok (run_filterMapM (g := fun bs => match s.store.barrierAt bs.entry with
    | .ok bar => if bar.waiting = 0 then some bs.entry else none
    | .error _ => none) fun bs hbs => ?_) ?_
  · obtain ⟨bar, hbar⟩ := (h.placed bs (by simpa using hbs)).barrierAt
    simp only [hbar, run_liftStore_ok_bind, run_pure]
  · exact h.finishStep (by simp [hph]) (by simp [hph]) (by decide) (framed_linkEntries _)

theorem returns_listSchedule (hph : s.phase = .started) :
    Returns listSchedule s (fun s' => s'.phase = .poisoned ∧ s'.Coherent)
      fun _ s' => s'.phase = .done ∧ s'.Coherent := by
  unfold listSchedule
  refine Returns.bind_ok (run_enter hph (by decide)) ?_
  refine h.finishStep (by simp [hph]) (by simp [hph]) (by decide) ?_
  refine Respects.get.bind fun _ => (framed_dispatchWith _).bind fun _ => Respects.get.bind fun _ => ?_
  dsimp only
  split
  · exact Respects.throw _
  · exact Respects.pure _

end Steps

end Run

namespace Command

open Run

variable {s : Scheduler}

/-! Every step, in every phase. -/

theorem run_poisoned (hp : s.phase = .poisoned) (c : Command) :
    c.run.run.run s = (.error .poisoned, s) := by
  cases c with
  | insertRoot time =>
    refine run_bind_error ?_
    unfold Run.insertRoot
    simp only [run_get_bind, hp, bne_self_eq_false, Bool.and_false, Bool.false_eq_true, if_false]
    exact run_bind_error (run_enter_poisoned hp)
  | _ => exact run_bind_error (run_enter_poisoned hp)

theorem run_misplaced (h : s.Coherent) (hp : s.phase ≠ .poisoned) {c : Command}
    (hc : s.phase ≠ c.phase) : c.run.run.run s = c.misplaced s := by
  cases c with
  | insertRoot time =>
    obtain ⟨r, hr⟩ := h.rooted hc hp
    refine run_bind_error ?_
    unfold Run.insertRoot
    rw [run_get_bind, if_pos (by simp [hr, hp])]
    rfl
  | _ => exact run_bind_error (run_enter_misplaced hp hc)

/-- A step refused by its checks changes nothing. -/
theorem run_refused (h : s.Coherent) {c : Command} (hc : s.phase = c.phase) {e : RunError}
    (hr : c.refusal s = some e) : c.run.run.run s = (.error e, s) := by
  cases c with
  | insertRoot time =>
    have ht : time.isFinite = false := by
      cases ht : time.isFinite <;> simp_all [refusal]
    have he : e = .invalidRootTime time := by simp_all [refusal]
    subst he
    replace hc : s.phase = .empty := hc
    refine run_bind_error ?_
    unfold Run.insertRoot
    simp only [run_get_bind, h.unrooted hc, Option.isSome_none, Bool.false_and, Bool.false_eq_true,
      if_false]
    rw [run_bind_ok (run_enter hc (by decide))]
    simp only [ht, Bool.not_false, if_true]
    rfl
  | createProcessors n =>
    have hn : n = 0 := Decidable.byContradiction fun hn => by simp [refusal, hn] at hr
    have he : e = .noProcessors := by simp_all [refusal]
    subst hn he
    replace hc : s.phase = .rootInserted := hc
    rw [run, Run.createProcessors, run_bind_ok (run_enter hc (by decide))]
    rfl
  | start task =>
    have hb : s.barriers[task]? = none := by
      cases hb : s.barriers[task]? <;> simp_all [refusal]
    have he : e = .task (.unknownTask task) := by simp_all [refusal]
    subst he
    replace hc : s.phase = .tasksInserted := hc
    rw [run, Run.start, run_bind_ok (run_enter hc (by decide)), run_get_bind, hb]
    rfl
  | _ => cases hr

theorem returns (h : s.Coherent) {c : Command} (hc : s.phase = c.phase) (hr : c.refusal s = none) :
    Returns c.run s (fun s' => s'.phase = .poisoned ∧ s'.Coherent)
      fun _ s' => s'.phase = c.next ∧ s'.Coherent := by
  cases c with
  | insertRoot time =>
    have ht : time.isFinite = true := by
      cases ht : time.isFinite <;> simp_all [refusal]
    exact (returns_insertRoot h hc ht).bind fun _ _ hq => Returns.pure hq
  | createProcessors n =>
    have hn : n ≠ 0 := by intro hn; simp [refusal, hn] at hr
    exact returns_createProcessors h hc hn
  | insertConstraints g => exact returns_insertConstraints h hc g
  | insertTasks g split => exact returns_insertTasks h hc g split
  | start task =>
    obtain ⟨bs, hb⟩ : ∃ bs, s.barriers[task]? = some bs := by
      cases hb : s.barriers[task]? <;> simp_all [refusal]
    exact returns_start h hc hb
  | startEntries => exact returns_startEntries h hc
  | listSchedule => exact returns_listSchedule h hc

theorem obeys (h : s.Coherent) (c : Command) :
    c.Obeys s (c.run.run.run s) ∧ (c.run.run.run s).2.Coherent := by
  by_cases hp : s.phase = .poisoned
  · rw [c.run_poisoned hp]
    exact ⟨by rw [Obeys, if_pos hp], h⟩
  by_cases hc : s.phase = c.phase
  · have hin : ¬s.phase ≠ c.phase := fun h' => h' hc
    cases hr : c.refusal s with
    | some e =>
      rw [run_refused h hc hr]
      exact ⟨by rw [Obeys, if_neg hp, if_neg hin, hr], h⟩
    | none =>
      rcases returns h hc hr with ⟨a, s', hrun, hph, hco⟩ | ⟨e, s', hrun, hph, hco⟩
      · rw [hrun]
        exact ⟨by rw [Obeys, if_neg hp, if_neg hin, hr]; exact hph, hco⟩
      · rw [hrun]
        exact ⟨by rw [Obeys, if_neg hp, if_neg hin, hr]; exact hph, hco⟩
  · rw [run_misplaced h hp hc]
    refine ⟨by rw [Obeys, if_neg hp, if_pos hc], ?_⟩
    -- only a second root poisons the run; every other step out of order leaves it as it was
    cases c with
    | insertRoot time => exact h.poisoned (.refl s)
    | _ => exact h

end Command

namespace Call

open Run

variable {s : Scheduler}

theorem obeys (h : s.Coherent) (c : Call) :
    c.Obeys s (c.run.run.run s) ∧ (c.run.run.run s).2.Coherent := by
  cases c with
  | command c => exact c.obeys h
  | addVertex n =>
    refine ⟨?_, h.frame (((framed_addVertex n).bind fun _ => Respects.pure _) s trivial)⟩
    rcases hx : (Run.addVertex n).run.run s with ⟨e | i, s'⟩
    · rw [run, run_bind_error hx]
      exact phase_of_guarded_error hx
    · rw [run, run_bind_ok hx]
      trivial
  | addEdge fk tk src dst =>
    refine ⟨?_, h.frame (framed_addEdge fk tk src dst s trivial)⟩
    rcases hx : (Run.addEdge fk tk src dst).run.run s with ⟨e | i, s'⟩
    · rw [run, hx]
      exact phase_of_guarded_error hx
    · rw [run, hx]
      trivial

theorem stays_poisoned (hp : s.phase = .poisoned) (c : Call) : (c.run.run.run s).2.phase = .poisoned := by
  have hframe : ∀ {x : Run Unit}, Framed x → (x.run.run s).2.phase = .poisoned := fun hx =>
    (hx s trivial).phase.elim (·.trans hp) id
  cases c with
  | command c => rw [run, c.run_poisoned hp]; exact hp
  | addVertex n => exact hframe ((framed_addVertex n).bind fun _ => Respects.pure _)
  | addEdge fk tk src dst => exact hframe (framed_addEdge fk tk src dst)

end Call

theorem Reachable.coherent {s : Scheduler} (h : Reachable s) : s.Coherent := by
  induction h with
  | new priority store => exact .new priority store
  | call c _ ih => exact (c.obeys ih).2

/-! The plan reads the run and changes nothing. -/

theorem Scheduler.plan_poisoned {s : Scheduler} (h : s.phase = .poisoned) :
    s.plan = .error .poisoned := by
  unfold Scheduler.plan
  rw [h]
  rfl

theorem Scheduler.plan_misplaced {s : Scheduler} (hp : s.phase ≠ .poisoned) (hd : s.phase ≠ .done) :
    s.plan = .error (.stepOutOfOrder .plan s.phase) := by
  unfold Scheduler.plan
  cases hph : s.phase <;> simp_all <;> rfl

/-- The phase rules of a run: every call obeys them in every reachable state, and a poisoned run
stays poisoned. -/
theorem Reachable.phase_rules {s : Scheduler} (hs : Reachable s) :
    (∀ c : Call, c.Obeys s (c.run.run.run s)) ∧
      (s.phase = .poisoned → ∀ c : Call, (c.run.run.run s).2.phase = .poisoned) ∧
      (s.phase = .poisoned → s.plan = .error .poisoned) ∧
      (s.phase ≠ .poisoned → s.phase ≠ .done → s.plan = .error (.stepOutOfOrder .plan s.phase)) :=
  ⟨fun c => (c.obeys hs.coherent).1, Call.stays_poisoned, Scheduler.plan_poisoned,
    Scheduler.plan_misplaced⟩

/-- One task of one unit, `1.0` long, scheduled on one processor; then the sink adds a second
unit of the task, which no step schedules. -/
def lateUnitRun : Scheduler :=
  let g : TaskGraph := ⟨#[⟨[⟨0x3FF0000000000000⟩], []⟩]⟩
  Call.runAll [.command (.insertRoot Double.zero), .command (.createProcessors 1),
    .command (.insertConstraints g), .command (.insertTasks g .subtasks), .command .startEntries,
    .command .listSchedule, .addVertex (.unit (UnitNode.new ⟨0, 1⟩ ⟨0x3FF0000000000000⟩ Double.zero))]
    (Scheduler.new (fun _ => Double.zero) {})

/-- The plan of a reachable run in `done` can fail, and the run then stays in `done`: the plan
does not poison it. -/
theorem plan_fails_in_done :
    Reachable lateUnitRun ∧ lateUnitRun.phase = .done ∧ lateUnitRun.plan.toBool = false :=
  ⟨(Reachable.new _ _).runAll _, by decide +kernel, by decide +kernel⟩

/-- The phase rules at the late unit run, in `done`, and once a second root poisons it. -/
theorem phase_rules_late_unit :
    (lateUnitRun.phase = .done ∧ ∀ c : Call, c.Obeys lateUnitRun (c.run.run.run lateUnitRun)) ∧
      let s := ((Command.insertRoot Double.zero).run.run.run lateUnitRun).2
      s.phase = .poisoned ∧ (∀ c : Call, (c.run.run.run s).2.phase = .poisoned) ∧
        s.plan = .error .poisoned := by
  have hr : Reachable lateUnitRun := (Reachable.new _ _).runAll _
  have hp : Reachable ((Command.insertRoot Double.zero).run.run.run lateUnitRun).2 :=
    hr.call (.command _)
  have hph : ((Command.insertRoot Double.zero).run.run.run lateUnitRun).2.phase = .poisoned := by
    decide +kernel
  exact ⟨⟨by decide +kernel, (Reachable.phase_rules hr).1⟩, hph, (Reachable.phase_rules hp).2.1 hph,
    (Reachable.phase_rules hp).2.2.1 hph⟩

/-- A run with its root at `0.0` and one processor, over a store of room `16`. -/
def staffedStart : Scheduler :=
  ((Command.createProcessors 1).run.run.run ((Command.insertRoot Double.zero).run.run.run
    (Scheduler.new (fun _ => Double.zero) (Store.withLimit 16))).2).2

/-- One task of one unit, `1.0` long. -/
def oneUnitGraph : TaskGraph := ⟨#[⟨[⟨0x3FF0000000000000⟩], []⟩]⟩

/-- `oneUnitGraph` through the remaining steps after `staffedStart`, scheduled. -/
def scheduledRun : Scheduler :=
  (Command.listSchedule.run.run.run (Command.startEntries.run.run.run
    ((Command.insertTasks oneUnitGraph .subtasks).run.run.run
      ((Command.insertConstraints oneUnitGraph).run.run.run staffedStart).2).2).2).2

end ListScheduling
