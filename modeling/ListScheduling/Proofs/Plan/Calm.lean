import ListScheduling.Proofs.Plan.Lanes
import ListScheduling.Proofs.Scheduler.Times

/-!
The blocks of the steps keep what a plan reads of a run.
-/
namespace ListScheduling

/-- What a plan reads of a run: the chains of its processors, and a root and task barriers that
are vertices of their kinds. -/
structure Scheduler.Charted (s : Scheduler) : Prop where
  lanes : s.store.Lanes s.processors
  root : ∀ rt, s.root = some rt → s.store.HasKind rt .root
  barriers : ∀ bs ∈ s.barriers,
    s.store.HasKind bs.entry .barrier ∧ s.store.HasKind bs.exit .barrier

/-- A step the chart does not see: the store changes inertly, and the processors, the root and
the barriers of the tasks stay. -/
structure Scheduler.Still (s s' : Scheduler) : Prop where
  store : s.store.Inert s'.store
  processors : s'.processors = s.processors
  root : s'.root = s.root
  barriers : s'.barriers = s.barriers

namespace Scheduler.Still

variable {s s₁ s₂ : Scheduler}

@[refl] theorem refl (s : Scheduler) : s.Still s := ⟨.refl _, rfl, rfl, rfl⟩

theorem trans (h₁ : s.Still s₁) (h₂ : s₁.Still s₂) : s.Still s₂ :=
  ⟨h₁.store.trans h₂.store, h₂.processors.trans h₁.processors, h₂.root.trans h₁.root,
    h₂.barriers.trans h₁.barriers⟩

theorem of_store (h : s.store.Inert s₁.store) (hp : s₁.processors = s.processors)
    (hr : s₁.root = s.root) (hb : s₁.barriers = s.barriers) : s.Still s₁ := ⟨h, hp, hr, hb⟩

theorem congr (h : s.Still s₁) (hst : s₂.store = s₁.store) (hp : s₂.processors = s₁.processors)
    (hr : s₂.root = s₁.root) (hb : s₂.barriers = s₁.barriers) : s.Still s₂ :=
  ⟨hst ▸ h.store, hp.trans h.processors, hr.trans h.root, hb.trans h.barriers⟩

theorem charted (h : s.Still s₁) (hc : s.store.Closed) (hs : s.Charted) : s₁.Charted where
  lanes := h.processors ▸ hs.lanes.inert h.store hc
  root rt hrt := h.store.keeps.hasKind (hs.root rt (h.root ▸ hrt))
  barriers bs hbs :=
    ⟨h.store.keeps.hasKind (hs.barriers bs (h.barriers ▸ hbs)).1,
      h.store.keeps.hasKind (hs.barriers bs (h.barriers ▸ hbs)).2⟩

end Scheduler.Still

/-- The law of the blocks the chart does not see, in a run from a root at time `r`. -/
def Scheduler.still (r : Double) : Run.Law where
  inv s := s.Sound r []
  rel s s' := s'.Sound r [] ∧ s.Still s'
  refl s h := ⟨h, .refl s⟩
  trans h₁ h₂ := ⟨h₂.1, h₁.2.trans h₂.2⟩
  inv_of_rel h := h.1
  poison h := ⟨h.1.mono rfl fun _ he => he, h.2.congr rfl rfl rfl rfl⟩

/-- The law of the blocks that keep the chart, in a run from a root at time `r`. -/
def Scheduler.calm (r : Double) : Run.Law where
  inv s := s.Sound r []
  rel s s' := s'.Sound r [] ∧ s'.processors = s.processors ∧ (s.Charted → s'.Charted)
  refl _ h := ⟨h, rfl, id⟩
  trans h₁ h₂ := ⟨h₂.1, h₂.2.1.trans h₁.2.1, h₂.2.2 ∘ h₁.2.2⟩
  inv_of_rel h := h.1
  poison {_ s'} h := ⟨h.1.mono rfl fun _ he => he, h.2.1, fun hc =>
    ((Still.refl s').congr rfl rfl rfl rfl : s'.Still { s' with phase := .poisoned }).charted
      h.1.closed (h.2.2 hc)⟩

namespace Store

variable {st : Store} {b : Nat}

theorem inert_setNode_barrier {bar nb : BarrierNode} {out : Array Nat}
    (hb : st.slots[b]? = some ⟨.barrier bar, out⟩) : st.Inert (st.setNode b (.barrier nb)) :=
  inert_setNode rfl fun slot hs => by
    rw [hb] at hs
    cases hs
    exact ⟨rfl, rfl⟩

theorem inert_setNode_unit {un un' : UnitNode} {out : Array Nat}
    (hb : st.slots[b]? = some ⟨.unit un, out⟩) (hun : un.isScheduled = false)
    (hun' : un'.isScheduled = false) : st.Inert (st.setNode b (.unit un')) :=
  inert_setNode hun' fun slot hs => by
    rw [hb] at hs
    cases hs
    exact ⟨rfl, hun⟩

end Store

namespace Run

open Scheduler

variable {r : Double} {s : Scheduler} {α : Type}

theorem Respects.calm_of_still {x : Run α} (h : Respects (still r) x) : Respects (calm r) x :=
  fun s hs => ⟨(h s hs).1, (h s hs).2.processors, (h s hs).2.charted hs.closed⟩

theorem Respects.still_of {x : Run α} (ho : Respects (onward r) x)
    (hx : ∀ s : Scheduler, s.Sound r [] → s.Still (x.run.run s).2) : Respects (still r) x :=
  fun s hs => ⟨(ho s hs).1, hx s hs⟩

theorem still_modify {g : Scheduler → Scheduler} (hst : ∀ s, (g s).store = s.store)
    (hq : ∀ s, (g s).queue = s.queue) (hp : ∀ s, (g s).processors = s.processors)
    (hr : ∀ s, (g s).root = s.root) (hb : ∀ s, (g s).barriers = s.barriers) :
    Respects (still r) (modify g) :=
  Respects.still_of (respects_modify hst hq) fun s _ => (Still.refl s).congr (hst s) (hp s) (hr s) (hb s)

theorem still_addVertex {n : Node} (hn : n.Sound r) (hp : n.isPinned = false) :
    Respects (still r) (addVertex n) := by
  refine Respects.still_of (respects_addVertex hn) fun s _ => ?_
  by_cases hroom : s.store.size < s.store.limit
  · rw [run_addVertex n hroom]
    exact .of_store (Store.inert_append hp) rfl rfl rfl
  · rw [run_addVertex_full n (Nat.not_lt.1 hroom)]
    exact (Still.refl s).congr rfl rfl rfl rfl

variable {fk tk : NodeKind} {src dst : Nat}

theorem still_recordEdge (hf : fk ≠ .processor) (ht : tk ≠ .processor) (s : Scheduler) :
    s.Still ((recordEdge fk tk src dst).run.run s).2 := by
  cases hc : s.store.checkEdge fk tk src dst with
  | error e =>
    rw [run_recordEdge_error hc]
  | ok _ =>
    obtain ⟨⟨ssrc, hsrc, hks⟩, sdst, hdst, hkd⟩ := Store.slots_of_checkEdge hc
    rw [run_recordEdge hc]
    refine .of_store (Store.inert_appendEdge (Array.getElem?_eq_some_iff.1 hdst).1 ?_ ?_) rfl rfl rfl
    · rw [Store.isKind_of_getElem? hsrc, hks]
      exact beq_eq_false_iff_ne.2 hf
    · rw [Store.isKind_of_getElem? hdst, hkd]
      exact beq_eq_false_iff_ne.2 ht

theorem still_registerInput (b : Nat) (s : Scheduler) : s.Still ((registerInput b).run.run s).2 := by
  cases hb : s.store.barrierAt b with
  | error e =>
    have hrun : (registerInput b).run.run s = (.error (.store e), s) := by
      simp only [registerInput, run_get_bind, hb, run_liftStore_error_bind]
    rw [hrun]
  | ok bar =>
    obtain ⟨out, hslot⟩ := Store.slot_of_barrierAt hb
    cases hsat : bar.satisfied
    · rw [run_registerInput hslot hsat]
      exact .of_store (Store.inert_setNode_barrier hslot) rfl rfl rfl
    · have hrun : (registerInput b).run.run s = (.error (.barrierAlreadySatisfied b), s) := by
        simp only [registerInput, run_get_bind, hb, run_liftStore_ok_bind, hsat, if_true,
          run_throw_bind]
      rw [hrun]

/-! The spreading of readiness, with its stack. -/

section Spreading

variable {a b : Nat} {rest : List (Nat × Nat)}

theorem still_satisfyInput (a b : Nat) (s : Scheduler) :
    s.Still ((satisfyInput a b).run.run s).2 := by
  cases ha : s.store.slots[a]? with
  | none =>
    have hrun : (satisfyInput a b).run.run s = (.error (.store (.unknownVertex a)), s) := by
      simp only [satisfyInput, run_get_bind, Store.get_eq_error ha, run_liftStore_error_bind]
    rw [hrun]
  | some sa =>
    cases hb : s.store.barrierAt b with
    | error e =>
      have hrun : (satisfyInput a b).run.run s = (.error (.store e), s) := by
        simp only [satisfyInput, run_get_bind, Store.get_eq ha, run_liftStore_ok_bind, hb,
          run_liftStore_error_bind]
      rw [hrun]
    | ok bar =>
      obtain ⟨out, hslot⟩ := Store.slot_of_barrierAt hb
      rcases Nat.lt_trichotomy bar.waiting 1 with hw | hw | hw
      · have hrun : (satisfyInput a b).run.run s = (.error (.barrierUnderflow b), s) := by
          simp only [satisfyInput, run_get_bind, Store.get_eq ha, run_liftStore_ok_bind, hb,
            show bar.waiting = 0 by omega, if_true, run_throw_bind]
        rw [hrun]
      · rw [run_satisfyInput_fire ha hslot hw]
        exact .of_store (Store.inert_setNode_barrier hslot) rfl rfl rfl
      · rw [run_satisfyInput_wait ha hslot hw]
        exact .of_store (Store.inert_setNode_barrier hslot) rfl rfl rfl

/-- Taking an edge from the stack: a release raises a unit that is not placed, since the edge
on top is the one release left of its unit. -/
theorem still_propagate (hs : s.Sound r ((a, b) :: rest)) :
    s.Still ((propagate a b).run.run s).2 := by
  cases ha : s.store.slots[a]? with
  | none =>
    have hrun : (propagate a b).run.run s = (.error (.store (.unknownVertex a)), s) := by
      simp only [propagate, run_get_bind, Store.kindAt_eq_error ha, run_liftStore_error_bind]
    rw [hrun]
  | some sa =>
    cases hb : s.store.slots[b]? with
    | none =>
      have hrun : (propagate a b).run.run s = (.error (.store (.unknownVertex b)), s) := by
        simp only [propagate, run_get_bind, Store.kindAt_eq ha, run_liftStore_ok_bind,
          Store.kindAt_eq_error hb, run_liftStore_error_bind]
      rw [hrun]
    | some sb =>
      obtain ⟨na, oa⟩ := sa
      obtain ⟨nb, ob⟩ := sb
      rw [run_propagate ha hb]
      split
      · exact still_satisfyInput a b s
      · exact still_satisfyInput a b s
      · rename_i hka hkb
        cases na <;> cases hka
        cases nb <;> cases hkb
        rename_i bar un
        have hbar : s.store.isBarrier a = true := by simp [Store.isBarrier, ha, Node.kind]
        have hun := hs.unplaced_of_top hbar hb rfl
        rw [run_bind_ok (run_releaseUnit ha hb)]
        exact .of_store (Store.inert_setNode_unit hb hun hun) rfl rfl rfl
      · rfl

theorem still_drainWith (fuel : Nat) :
    ∀ {stack : List (Nat × Nat)} {s : Scheduler}, s.Sound r stack →
      s.Still ((drainWith fuel stack).run.run s).2 := by
  induction fuel with
  | zero =>
    intro stack s _
    rw [run_drainWith_zero]
  | succ fuel ih =>
    intro stack s hs
    cases stack with
    | nil => rw [run_drainWith_nil]
    | cons e rest =>
      obtain ⟨a, b⟩ := e
      rw [run_drainWith_cons]
      have hstill := still_propagate hs
      rcases sound_propagate hs with ⟨next, s', hrun, hs', -⟩ | ⟨e, s', hrun, -⟩
      · rw [hrun] at hstill
        rw [run_bind_ok hrun]
        exact hstill.trans (ih hs')
      · rw [hrun] at hstill
        rw [run_bind_error hrun]
        exact hstill

theorem still_drain {stack : List (Nat × Nat)} (hs : s.Sound r stack) :
    s.Still ((drain stack).run.run s).2 := by
  rw [run_drain]
  exact still_drainWith _ hs

end Spreading

theorem still_releaseFromRoot (rt b : Nat) : Respects (still r) (releaseFromRoot rt b) := by
  refine Respects.still_of (respects_releaseFromRoot rt b) fun s hs => ?_
  rcases run_releaseFromRoot_cases rt b s with ⟨e, hrun⟩ |
    ⟨t, ro, bar, out, -, hslot, hsat, hw, hrun⟩
  · rw [hrun]
  · rw [hrun]
    have hn := (hs.nodes b _ hslot).raise hsat bar.waiting t
    have hf := hn.1.fire hw
    have hs' : Scheduler.Sound r { s with
        store := s.store.setNode b (.barrier { bar with timing := bar.timing.advance t }.fire)
        stats.barriersFired := s.stats.barriersFired + 1 }
        (out.toList.map (b, ·) ++ []) :=
      hs.fire hslot hsat hf.1 rfl rfl rfl
    rw [List.append_nil] at hs'
    refine Still.trans ?_ (still_drain hs')
    exact .of_store (Store.inert_setNode_barrier hslot) rfl rfl rfl

theorem still_addEdge (hf : fk ≠ .processor) (ht : tk ≠ .processor) (hs : s.Sound r [])
    (hok : s.EdgeOk fk tk dst) : (still r).rel s ((addEdge fk tk src dst).run.run s).2 := by
  refine Law.guarded_at (L := still r)
    (Law.bind_at (L := still r) ⟨(onward_recordEdge hs hok).1, still_recordEdge hf ht s⟩
      fun _ s₁ _ h₁ => ?_)
  unfold react
  split
  · exact ⟨(respects_registerInput dst s₁ h₁.1).1, still_registerInput dst s₁⟩
  · exact ⟨(respects_registerInput dst s₁ h₁.1).1, still_registerInput dst s₁⟩
  · exact still_releaseFromRoot src dst s₁ h₁.1
  · exact absurd rfl hf
  · exact (still r).refl s₁ h₁.1

theorem respects_still_addEdge (hf : fk ≠ .processor) (ht : tk ≠ .processor)
    (hok : ∀ s : Scheduler, s.EdgeOk fk tk dst) : Respects (still r) (addEdge fk tk src dst) :=
  fun s hs => still_addEdge hf ht hs (hok s)

/-! The steps that add no processor node and place no unit. -/

theorem still_finishStep {next : Phase} {x : Run α} (hx : Respects (still r) x) :
    Respects (still r) (finishStep next x) :=
  Respects.finishStep hx fun h => ⟨h.1.mono rfl fun _ he => he, h.2.congr rfl rfl rfl rfl⟩

theorem calm_finishStep {next : Phase} {x : Run α} (hx : Respects (calm r) x) :
    Respects (calm r) (finishStep next x) :=
  Respects.finishStep hx fun {_ s'} h => ⟨h.1.mono rfl fun _ he => he, h.2.1, fun hc =>
    ((Still.refl s').congr rfl rfl rfl rfl : s'.Still { s' with phase := next }).charted
      h.1.closed (h.2.2 hc)⟩

theorem still_rootVertex_bind {β : Type} {f : Nat × Double → Run β}
    (hf : ∀ i t, r.le t → Respects (still r) (f (i, t))) : Respects (still r) (rootVertex >>= f) := by
  intro s (hs : s.Sound r [])
  refine respects_rootVertex.bind_at hs fun a s' h h₁ => ?_
  obtain ⟨i, t⟩ := a
  exact hf i t (rootVertex_time hs h) s' h₁.1

theorem calm_rootVertex_bind {β : Type} {f : Nat × Double → Run β}
    (hf : ∀ i t, r.le t → Respects (calm r) (f (i, t))) : Respects (calm r) (rootVertex >>= f) := by
  intro s (hs : s.Sound r [])
  refine respects_rootVertex.bind_at hs fun a s' h h₁ => ?_
  obtain ⟨i, t⟩ := a
  exact hf i t (rootVertex_time hs h) s' h₁.1

theorem calm_insertRoot {t : Double} (ht : r.le t) : Respects (calm r) (insertRoot t) := by
  unfold insertRoot
  refine Respects.get.bind fun s => ?_
  dsimp only
  split
  · exact (Respects.calm_of_still (still_modify (fun _ => by rfl) (fun _ => by rfl)
      (fun _ => by rfl) (fun _ => by rfl) fun _ => by rfl)).bind fun _ => Respects.throw_bind _ _
  · refine (Respects.enter _ _).bind fun _ => ?_
    split
    · exact Respects.throw_bind _ _
    · refine calm_finishStep fun s₀ hs₀ => ?_
      refine Respects.bind_at (Respects.calm_of_still (still_addVertex (n := .root t) ht rfl)) hs₀
        fun rt s₁ h₁ hr₁ => ?_
      simp only [run_modify_bind, run_pure]
      refine ⟨hr₁.1.mono rfl fun _ he => he, rfl, fun hc => ?_⟩
      exact ⟨hc.lanes, fun rt' hrt' => by cases hrt'; exact hasKind_addVertex h₁, hc.barriers⟩

/-- The barriers of a task are recorded right after both are added. -/
theorem calm_insertConstraints (g : TaskGraph) : Respects (calm r) (insertConstraints g) := by
  unfold insertConstraints
  refine (Respects.enter _ _).bind fun _ => calm_finishStep ?_
  refine calm_rootVertex_bind fun _ time ht => ?_
  refine (Respects.forIn fun _ _ => ?_).bind fun _ =>
    (Respects.forIn fun _ _ => ?_).bind fun _ => Respects.pure _
  · intro s₀ hs₀
    have hadd := still_addVertex (Node.sound_barrier_new (r := r) ht) rfl
    refine Respects.bind_at (Respects.calm_of_still hadd) hs₀ fun entry s₁ h₁ hr₁ => ?_
    refine Respects.bind_at (Respects.calm_of_still hadd) hr₁.1 fun exit s₂ h₂ hr₂ => ?_
    simp only [run_modify_bind, run_pure]
    have hentry : s₂.store.HasKind entry .barrier := by
      have hst := (hadd s₁ hr₁.1).2
      rw [h₂] at hst
      exact hst.store.keeps.hasKind (hasKind_addVertex h₁)
    refine ⟨hr₂.1.mono rfl fun _ he => he, rfl, fun hc => ⟨hc.lanes, hc.root, fun bs hbs => ?_⟩⟩
    rcases Array.mem_push.1 hbs with hbs | rfl
    · exact hc.barriers bs hbs
    · exact ⟨hentry, hasKind_addVertex h₂⟩
  · refine Respects.calm_of_still ?_
    refine Respects.get.bind fun _ => (Respects.forIn fun _ _ => Respects.get.bind fun _ => ?_).bind
      fun _ => Respects.pure _
    split
    · exact (Respects.throw _).bind fun _ => Respects.pure _
    · exact Respects.bind (respects_still_addEdge nofun nofun fun _ => trivial) fun _ => Respects.pure _

theorem still_addUnit {id : UnitId} {x t : Double} (hx : x.isValidTime = true) (ht : r.le t)
    (entry : Nat) {β : Type} {f : Nat → Run β} (hf : ∀ unit, Respects (still r) (f unit)) :
    Respects (still r) (addVertex (.unit (UnitNode.new id x t)) >>= fun unit =>
      addEdge .barrier .unit entry unit >>= fun _ => f unit) := by
  intro s (hs : s.Sound r [])
  refine Respects.bind_at (still_addVertex (Node.sound_unit_new hx ht) rfl) hs fun unit s₁ h h₁ => ?_
  have hidle : s₁.Idle unit := idle_addVertex hs (fun _ hu => by cases hu; rfl) h
  exact Law.bind_at (L := still r) (still_addEdge nofun nofun h₁.1 hidle)
    fun _ s₂ _ h₂ => hf unit s₂ h₂.1

theorem still_insertTasks (g : TaskGraph) (split : Split) :
    Respects (still r) (insertTasks g split) := by
  unfold insertTasks
  refine (Respects.enter _ _).bind fun _ => still_finishStep ?_
  refine still_rootVertex_bind fun _ time ht => Respects.get.bind fun _ => ?_
  refine (Respects.forIn fun ⟨bs, t⟩ _ => ?_).bind fun _ => Respects.pure _
  dsimp only
  split
  · exact Respects.bind (respects_still_addEdge nofun nofun fun _ => trivial) fun _ => Respects.pure _
  · refine (Respects.forIn fun ⟨x, k⟩ _ => ?_).bind fun _ => Respects.pure _
    dsimp only
    split
    · exact Respects.throw_bind _ _
    · rename_i hx
      have hx : x.isValidTime = true := by simpa using hx
      refine still_addUnit hx ht bs.entry fun _ => ?_
      exact Respects.bind (respects_still_addEdge nofun nofun fun _ => trivial) fun _ => Respects.pure _

theorem still_linkEntries (entries : List Nat) : Respects (still r) (linkEntries entries) := by
  refine respects_rootVertex.bind fun ⟨root, _⟩ => ?_
  refine (Respects.forIn fun _ _ => ?_).bind fun _ => Respects.pure _
  exact Respects.bind (respects_still_addEdge nofun nofun fun _ => trivial) fun _ => Respects.pure _

theorem still_start (task : Nat) : Respects (still r) (start task) := by
  unfold start
  refine (Respects.enter _ _).bind fun _ => Respects.get.bind fun _ => ?_
  split
  · exact Respects.throw _
  · exact still_finishStep (still_linkEntries _)

theorem still_startEntries : Respects (still r) startEntries := by
  unfold startEntries
  refine (Respects.enter _ _).bind fun _ => Respects.get.bind fun _ => ?_
  refine (Respects.filterMapM fun _ => (Respects.liftStore _).bind fun _ => Respects.pure _).bind
    fun _ => ?_
  exact still_finishStep (still_linkEntries _)

end Run

end ListScheduling
