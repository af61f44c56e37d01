import ListScheduling.Proofs.Plan.Charting
import ListScheduling.Proofs.Refinement.Pipeline
import ListScheduling.Proofs.Scheduler.Phases

/-!
A whole run that reaches its end.
-/
namespace ListScheduling

/-- What a whole run that reaches its end leaves: a store sound from the root's time `r`, charted
by one first node per processor, with every unit assigned, and the run done. -/
structure Scheduler.Finished (r : Double) (count : Nat) (s : Scheduler) : Prop where
  sound : s.Sound r []
  charted : s.Charted
  processors : s.processors.size = count
  assigned : s.store.unassigned = []
  done : s.phase = .done

namespace Command

open Run

variable {s : Scheduler}

theorem phase_ne_done (c : Command) : c.phase ≠ .done := by
  cases c <;> intro h <;> cases h

theorem returns_phase (h : s.Coherent) {c : Command} (hc : s.phase = c.phase) :
    Returns c.run s (fun s' => s'.phase ≠ .done) fun _ s' => s'.phase = c.next ∧ s'.Coherent := by
  cases hr : c.refusal s with
  | some e => exact Returns.of_error (run_refused h hc hr) (hc ▸ c.phase_ne_done)
  | none => exact (returns h hc hr).mono (fun _ _ hq => hq) fun _ he => by rw [he.1]; decide

end Command

namespace Run

variable {s s' : Scheduler} {time : Double} {count : Nat} {g : TaskGraph} {split : Split}
  {source : Option Nat}

theorem Returns.of_bind_pure {α : Type} {x : Run α} {E : Scheduler → Prop}
    {Q : Scheduler → Prop} (h : Returns (x >>= fun _ => Pure.pure ()) s E fun _ s' => Q s') :
    Returns x s E fun _ s' => Q s' := by
  rcases hx : x.run.run s with ⟨e | a, s₁⟩
  · exact Returns.of_error hx (h.of_eq_error (run_bind_error hx))
  · exact Returns.of_ok hx (h.of_eq_ok ((run_bind_ok hx).trans (run_pure () s₁)))

theorem returns_build (h : s.Coherent) (hph : s.phase = .empty) :
    Returns (build time count g split) s (fun s' => s'.phase ≠ .done)
      fun _ s' => s'.phase = .tasksInserted ∧ s'.Coherent := by
  unfold build
  refine Returns.bind (Returns.of_bind_pure (Command.returns_phase (c := .insertRoot time) h hph))
    fun _ s₁ ⟨hph₁, h₁⟩ => ?_
  refine Returns.bind (Command.returns_phase (c := .createProcessors count) h₁ hph₁)
    fun _ s₂ ⟨hph₂, h₂⟩ => ?_
  refine Returns.bind (Command.returns_phase (c := .insertConstraints g) h₂ hph₂)
    fun _ s₃ ⟨hph₃, h₃⟩ => ?_
  exact Command.returns_phase (c := .insertTasks g split) h₃ hph₃

theorem returns_pipeline (h : s.Coherent) (hph : s.phase = .empty) :
    Returns (pipeline time count g split source) s (fun s' => s'.phase ≠ .done)
      fun _ s' => s'.phase = .done := by
  unfold pipeline
  refine Returns.bind (returns_build h hph) fun _ s₄ ⟨hph₄, h₄⟩ => ?_
  have hlist : ∀ s₅ : Scheduler, s₅.phase = .started ∧ s₅.Coherent →
      Returns listSchedule s₅ (fun s' => s'.phase ≠ .done) fun _ s' => s'.phase = .done :=
    fun s₅ ⟨hph₅, h₅⟩ => (Command.returns_phase (c := .listSchedule) h₅ hph₅).mono
      (fun _ _ hq => hq.1) fun _ he => he
  cases source with
  | some t => exact Returns.bind (Command.returns_phase (c := .start t) h₄ hph₄) fun _ => hlist
  | none => exact Returns.bind (Command.returns_phase (c := .startEntries) h₄ hph₄) fun _ => hlist

theorem pipeline_ok_of_done {priority : UnitId → Double} {limit : Nat} {res : Except RunError Unit}
    (h : (pipeline time count g split source).run.run
      (Scheduler.new priority (Store.withLimit limit)) = (res, s'))
    (hd : s'.phase = .done) : res = .ok () := by
  rcases returns_pipeline (Scheduler.Coherent.new priority (Store.withLimit limit)) rfl with
    ⟨_, _, hrun, -⟩ | ⟨_, _, hrun, hne⟩
  · rw [h] at hrun
    cases hrun
    rfl
  · rw [h] at hrun
    cases hrun
    exact absurd hd hne

theorem isFinite_of_insertRoot_ok {priority : UnitId → Double} {limit : Nat} {i : Nat}
    (h : (insertRoot time).run.run (Scheduler.new priority (Store.withLimit limit)) = (.ok i, s')) :
    time.isFinite = true := by
  cases ht : time.isFinite with
  | true => rfl
  | false =>
    have hr : (Command.insertRoot time).refusal (Scheduler.new priority (Store.withLimit limit)) =
        some (.invalidRootTime time) := by
      simp [Command.refusal, ht]
    have href := Command.run_refused (Scheduler.Coherent.new priority (Store.withLimit limit))
      (c := .insertRoot time) rfl hr
    rw [show (Command.insertRoot time).run = (insertRoot time >>= fun _ => Pure.pure ()) from rfl,
      run_bind_ok h, run_pure] at href
    cases href

theorem built_ok {priority : UnitId → Double} {limit : Nat}
    (h : (build time count g split).run.run (Scheduler.new priority (Store.withLimit limit)) =
      (.ok (), s')) :
    s'.Sound time [] ∧ s'.Charted ∧ s'.processors.size = count := by
  unfold build at h
  obtain ⟨_, s₁, hroot, h₁⟩ := run_bind_eq_ok h
  have hle : time.le time :=
    Double.le_refl_of_not_isNaN (Double.not_isNaN_of_isFinite (isFinite_of_insertRoot_ok hroot))
  have hr₁ := ((calm_insertRoot hle).returns (Scheduler.Sound.new priority limit)).of_eq_ok hroot
  obtain ⟨_, s₂, hcreate, h₂⟩ := run_bind_eq_ok h₁
  obtain ⟨hc₂, hsize⟩ := charted_createProcessors (hr₁.2.2 (Scheduler.Charted.new priority limit))
    hr₁.1.closed hr₁.2.1 hcreate
  have hr₂ := ((respects_createProcessors count).returns hr₁.1).of_eq_ok hcreate
  obtain ⟨_, s₃, hcons, htasks⟩ := run_bind_eq_ok h₂
  have hr₃ := ((calm_insertConstraints g).returns hr₂.1).of_eq_ok hcons
  have hr₄ := ((Respects.calm_of_still (still_insertTasks g split)).returns hr₃.1).of_eq_ok htasks
  exact ⟨hr₄.1, hr₄.2.2 (hr₃.2.2 hc₂), by rw [hr₄.2.1, hr₃.2.1, hsize]⟩

theorem finished_pipeline {priority : UnitId → Double} {limit : Nat}
    (h : (pipeline time count g split source).run.run
      (Scheduler.new priority (Store.withLimit limit)) = (.ok (), s')) :
    s'.Finished time count := by
  unfold pipeline at h
  obtain ⟨_, s₄, hbuild, hrest⟩ := run_bind_eq_ok h
  obtain ⟨hs₄, hc₄, hsize⟩ := built_ok hbuild
  obtain ⟨s₅, hstill, hlist⟩ : ∃ s₅, (Scheduler.still time).rel s₄ s₅ ∧
      listSchedule.run.run s₅ = (.ok (), s') := by
    cases source with
    | some t =>
      obtain ⟨_, s₅, hstart, hlist⟩ := run_bind_eq_ok hrest
      exact ⟨s₅, ((still_start t).returns hs₄).of_eq_ok hstart, hlist⟩
    | none =>
      obtain ⟨_, s₅, hstart, hlist⟩ := run_bind_eq_ok hrest
      exact ⟨s₅, (still_startEntries.returns hs₄).of_eq_ok hstart, hlist⟩
  obtain ⟨hs₅, hst⟩ := hstill
  obtain ⟨hc, hp, hassigned, hdone⟩ := charted_listSchedule hs₅ (hst.charted hs₄.closed hc₄) hlist
  have hs' := (respects_listSchedule.returns hs₅).of_eq_ok hlist
  exact ⟨hs'.1, hc, by rw [hp, hst.processors, hsize], hassigned, hdone⟩

end Run

end ListScheduling
