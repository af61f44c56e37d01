import ListScheduling.Proofs.Plan.Finished

/-!
What a construction that succeeds has checked.
-/
namespace ListScheduling

/-- The law of the blocks that leave the barriers of the tasks as they are. -/
def Scheduler.keepsTasks : Run.Law where
  inv _ := True
  rel s s' := s'.barriers = s.barriers
  refl _ _ := rfl
  trans h₁ h₂ := h₂.trans h₁
  inv_of_rel _ := True.intro
  poison h := h

namespace Run

open Scheduler

variable {s s' : Scheduler} {r : Double}

theorem Returns.trivial {α : Type} (x : Run α) (s : Scheduler) :
    Returns x s (fun _ => True) fun _ _ => True := by
  rcases hx : x.run.run s with ⟨e | a, s'⟩
  · exact Returns.of_error hx True.intro
  · exact Returns.of_ok hx True.intro

theorem keepsTasks_addVertex (n : Node) : Respects keepsTasks (addVertex n) := by
  unfold addVertex
  refine Respects.guarded (Respects.get.bind fun _ => (Respects.liftStore _).bind fun _ => ?_)
  refine (Respects.modify fun _ _ => rfl).bind fun _ => (Respects.modify fun _ _ => rfl).bind
    fun _ => ?_
  exact Respects.get.bind fun _ => Respects.pure _

theorem keepsTasks_addEdge_root_processor (src dst : Nat) :
    Respects keepsTasks (addEdge .root .processor src dst) := by
  unfold addEdge recordEdge
  refine Respects.guarded ((Respects.get.bind fun _ => (Respects.liftStore _).bind fun _ => ?_).bind
    fun _ => Respects.pure ())
  exact (Respects.modify fun _ _ => rfl).bind fun _ => Respects.modify fun _ _ => rfl

theorem keepsTasks_insertRoot (t : Double) : Respects keepsTasks (insertRoot t) := by
  unfold insertRoot
  refine Respects.get.bind fun s => ?_
  dsimp only
  split
  · exact (Respects.modify fun _ _ => rfl).bind fun _ => Respects.throw_bind _ _
  · refine (Respects.enter _ _).bind fun _ => ?_
    split
    · exact Respects.throw_bind _ _
    · refine Respects.finishStep ((keepsTasks_addVertex _).bind fun _ => ?_) fun h => h
      exact (Respects.modify fun _ _ => rfl).bind fun _ => Respects.pure _

theorem keepsTasks_createProcessors (count : Nat) : Respects keepsTasks (createProcessors count) := by
  unfold createProcessors
  refine (Respects.enter _ _).bind fun _ => ?_
  dsimp only
  split
  · exact Respects.throw_bind _ _
  · refine Respects.finishStep (respects_rootVertex.bind fun rt => ?_) fun h => h
    obtain ⟨root, time⟩ := rt
    dsimp only
    rw [Std.Legacy.Range.forIn_eq_forIn_range']
    refine (Respects.forIn fun i _ => ?_).bind fun _ => Respects.pure _
    refine (keepsTasks_addVertex _).bind fun node => ?_
    refine (keepsTasks_addEdge_root_processor _ _).bind fun _ => ?_
    exact (Respects.modify fun _ _ => rfl).bind fun _ => Respects.pure _

theorem pos_of_createProcessors_ok {count : Nat}
    (h : (createProcessors count).run.run s = (.ok (), s')) : 0 < count := by
  unfold createProcessors at h
  obtain ⟨_, s₁, -, hrest⟩ := run_bind_eq_ok h
  dsimp only at hrest
  split at hrest
  · rw [run_throw_bind] at hrest
    cases hrest
  · omega

/-- The constraints that are inserted add a pair of barriers per task, and every successor they
name is looked up among the barriers. -/
theorem successors_lt_of_insertConstraints_ok (hs : s.Sound r []) {g : TaskGraph}
    (h : (insertConstraints g).run.run s = (.ok (), s')) :
    s'.barriers.size = s.barriers.size + g.size ∧
      ∀ t < g.size, ∀ x ∈ g.successors t, x < s'.barriers.size := by
  unfold insertConstraints at h
  obtain ⟨_, s₁, he, hrest⟩ := run_bind_eq_ok h
  obtain rfl := enter_eq_ok he
  obtain ⟨s₂, hbody, rfl⟩ := finishStep_eq_ok hrest
  obtain ⟨⟨root, time⟩, s₃, hrv, hloops⟩ := run_bind_eq_ok hbody
  have ht := rootVertex_time hs hrv
  obtain ⟨rfl, -, -⟩ := rootVertex_eq_ok hrv
  dsimp only at hloops
  obtain ⟨_, s₄, hpairs, hdeps⟩ := run_bind_eq_ok hloops
  clear hloops hbody hrest h he
  have hP : s₄.Sound r [] ∧ s₄.barriers.size = s₃.barriers.size + (List.range g.size).length := by
    refine (Returns.forIn (E := fun _ => True)
      (fun j s => s.Sound r [] ∧ s.barriers.size = s₃.barriers.size + j) ⟨hs, rfl⟩
      fun j _ s hI => ?_).of_eq_ok hpairs
    have hadd := still_addVertex (Node.sound_barrier_new (r := r) ht) rfl
    refine Returns.bind ((hadd.returns hI.1).mono (fun _ _ h => h) fun _ _ => True.intro)
      fun entry s₁ h₁ => ?_
    refine Returns.bind ((hadd.returns h₁.1).mono (fun _ _ h => h) fun _ _ => True.intro)
      fun exit s₂ h₂ => ?_
    refine Returns.bind_ok (run_modify _ _) (Returns.pure ⟨rfl, h₂.1.mono rfl fun _ he => he, ?_⟩)
    simp [h₂.2.barriers, h₁.2.barriers, hI.2]
    omega
  obtain ⟨_, s₅, hfor, hpure⟩ := run_bind_eq_ok hdeps
  rw [run_pure, Prod.mk.injEq] at hpure
  obtain ⟨-, rfl⟩ := hpure
  have hD := (Returns.forIn (E := fun _ => True) (fun t s => s.Sound r [] ∧ s.barriers = s₄.barriers ∧
      ∀ t' < t, ∀ x ∈ g.successors t', x < s₄.barriers.size)
    ⟨hP.1, rfl, fun _ h => absurd h (Nat.not_lt_zero _)⟩ fun t ht s hI => ?_).of_eq_ok hfor
  · have hsize : s₅.barriers.size = s₃.barriers.size + g.size := by
      rw [hD.2.1, hP.2, List.length_range]
    refine ⟨hsize, fun t ht x hx => ?_⟩
    rw [show ({ s₅ with phase := Phase.constraintsInserted } : Scheduler).barriers = s₅.barriers
      from rfl, hD.2.1]
    exact hD.2.2 t (by simpa using ht) x hx
  rw [List.getElem_range]
  refine Returns.bind_ok (run_get _) ?_
  refine Returns.bind (Returns.forIn (E := fun _ => True) (fun m s => s.Sound r [] ∧
      s.barriers = s₄.barriers ∧ ∀ j (hj : j < m) (hj' : j < (g.successors t).length),
        (g.successors t)[j] < s₄.barriers.size)
    ⟨hI.1, hI.2.1, fun _ h => absurd h (Nat.not_lt_zero _)⟩ fun m hm s hJ => ?_)
    fun _ s' hJ => Returns.pure ⟨rfl, hJ.1, hJ.2.1, ?_⟩
  · refine Returns.bind_ok (run_get _) ?_
    split
    · exact Returns.of_error (run_throw_bind _ _ s) True.intro
    · rename_i bs hbs
      have hlt : (g.successors t)[m] < s₄.barriers.size := by
        rw [← hJ.2.1]
        exact (Array.getElem?_eq_some_iff.1 hbs).1
      have hedge : ∀ a b, Respects (Scheduler.still r) (addEdge .barrier .barrier a b) :=
        fun _ _ => respects_still_addEdge (by decide) (by decide) fun _ => trivial
      refine Returns.bind (((hedge _ _).returns hJ.1).mono (fun _ _ h => h) fun _ _ => True.intro)
        fun _ s₁ h₁ => Returns.pure ⟨rfl, h₁.1, h₁.2.barriers.trans hJ.2.1, ?_⟩
      intro j hj hj'
      rcases Nat.lt_succ_iff_lt_or_eq.1 hj with hj | rfl
      · exact hJ.2.2 j hj hj'
      · exact hlt
  · intro t' ht' x hx
    rcases Nat.lt_succ_iff_lt_or_eq.1 ht' with ht' | rfl
    · exact hI.2.2 t' ht' x hx
    · obtain ⟨j, hj, rfl⟩ := List.getElem_of_mem hx
      exact hJ.2.2 j (by simpa using hj) hj

/-- The units that are inserted had valid times: each task's times are checked before any of its
units is added. -/
theorem valid_of_insertTasks_ok {g : TaskGraph} {split : Split}
    (h : (insertTasks g split).run.run s = (.ok (), s')) :
    ∀ t < s.barriers.size, ∀ x ∈ g.unitTimes split t, x.isValidTime = true := by
  unfold insertTasks at h
  obtain ⟨_, s₁, he, hrest⟩ := run_bind_eq_ok h
  obtain rfl := enter_eq_ok he
  obtain ⟨s₂, hbody, -⟩ := finishStep_eq_ok hrest
  obtain ⟨⟨root, time⟩, s₃, hrv, hloop⟩ := run_bind_eq_ok hbody
  obtain ⟨rfl, -, -⟩ := rootVertex_eq_ok hrv
  dsimp only at hloop
  rw [run_get_bind] at hloop
  obtain ⟨_, s₄, hfor, -⟩ := run_bind_eq_ok hloop
  have hR := (Returns.forIn (E := fun _ => True)
    (fun i _ => ∀ t < i, ∀ x ∈ g.unitTimes split t, x.isValidTime = true)
    (fun _ h => absurd h (Nat.not_lt_zero _)) fun i hi s hI => ?_).of_eq_ok hfor
  · simpa using hR
  rw [List.getElem_zipIdx]
  simp only [Nat.zero_add]
  have hnext : (∀ x ∈ g.unitTimes split i, x.isValidTime = true) →
      ∀ t < i + 1, ∀ x ∈ g.unitTimes split t, x.isValidTime = true := by
    intro hcur t ht
    rcases Nat.lt_succ_iff_lt_or_eq.1 ht with ht | rfl
    · exact hI t ht
    · exact hcur
  split
  · rename_i hempty
    refine Returns.bind (Returns.trivial _ _) fun _ _ _ => Returns.pure ⟨rfl, hnext fun x hx => ?_⟩
    rw [List.isEmpty_iff.1 hempty] at hx
    cases hx
  refine Returns.bind (Returns.forIn (E := fun _ => True)
    (fun k _ => ∀ j (hj : j < k) (hj' : j < (g.unitTimes split i).length),
      (g.unitTimes split i)[j].isValidTime = true)
    (fun _ h => absurd h (Nat.not_lt_zero _)) fun k hk s hJ => ?_)
    fun _ _ hJ => Returns.pure ⟨rfl, hnext fun x hx => ?_⟩
  · rw [List.getElem_zipIdx]
    simp only [Nat.zero_add]
    split
    · exact Returns.of_error (run_throw_bind _ _ s) True.intro
    · rename_i hv
      refine Returns.bind (Returns.trivial _ _) fun _ _ _ => Returns.bind (Returns.trivial _ _)
        fun _ _ _ => Returns.bind (Returns.trivial _ _) fun _ _ _ => Returns.pure ⟨rfl, ?_⟩
      intro j hj hj'
      rcases Nat.lt_succ_iff_lt_or_eq.1 hj with hj | rfl
      · exact hJ j hj hj'
      · simpa using hv
  · obtain ⟨j, hj, rfl⟩ := List.getElem_of_mem hx
    exact hJ j (by simpa using hj) hj

variable {time : Double} {count : Nat} {g : TaskGraph} {split : Split}
  {priority : UnitId → Double} {limit : Nat}

theorem accepted_of_build_ok
    (h : (build time count g split).run.run (Scheduler.new priority (Store.withLimit limit)) =
      (.ok (), s')) :
    time.isFinite = true ∧ 0 < count ∧ g.WellFormed ∧
      ∀ t < g.size, ∀ x ∈ g.unitTimes split t, x.isValidTime = true := by
  unfold build at h
  obtain ⟨_, s₁, hroot, h₁⟩ := run_bind_eq_ok h
  have hr := isFinite_of_insertRoot_ok hroot
  have hle : time.le time := Double.le_refl_of_not_isNaN (Double.not_isNaN_of_isFinite hr)
  have hs₁ := ((calm_insertRoot hle).returns (Scheduler.Sound.new priority limit)).of_eq_ok hroot
  have hb₁ : s₁.barriers = #[] := ((keepsTasks_insertRoot time).returns trivial).of_eq_ok hroot
  obtain ⟨_, s₂, hcreate, h₂⟩ := run_bind_eq_ok h₁
  have hs₂ := ((respects_createProcessors count).returns hs₁.1).of_eq_ok hcreate
  have hb₂ : s₂.barriers = s₁.barriers :=
    ((keepsTasks_createProcessors count).returns trivial).of_eq_ok hcreate
  -- the barriers of the tasks are the first ones, so a successor that has one is a task
  obtain ⟨_, s₃, hcons, htasks⟩ := run_bind_eq_ok h₂
  obtain ⟨hsize, hsucc⟩ := successors_lt_of_insertConstraints_ok hs₂.1 hcons
  rw [hb₂, hb₁, Array.size_empty, Nat.zero_add] at hsize
  refine ⟨hr, pos_of_createProcessors_ok hcreate, fun t ht x hx => ?_, fun t ht => ?_⟩
  · exact hsize ▸ hsucc t ht x hx
  · exact valid_of_insertTasks_ok htasks t (hsize ▸ ht)

theorem accepted_of_pipeline_ok {source : Option Nat}
    (h : (pipeline time count g split source).run.run
      (Scheduler.new priority (Store.withLimit limit)) = (.ok (), s')) :
    time.isFinite = true ∧ 0 < count ∧ g.WellFormed ∧
      ∀ t < g.size, ∀ x ∈ g.unitTimes split t, x.isValidTime = true := by
  unfold pipeline at h
  obtain ⟨_, s₄, hbuild, -⟩ := run_bind_eq_ok h
  exact accepted_of_build_ok hbuild

end Run

end ListScheduling
