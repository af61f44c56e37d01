import ListScheduling.Proofs.Plan.Calm

/-!
A pipeline that succeeds keeps the chart.
-/
namespace ListScheduling

open Run

variable {r : Double} {s s' : Scheduler}

theorem Scheduler.Charted.new (priority : UnitId → Double) (limit : Nat) :
    (Scheduler.new priority (Store.withLimit limit)).Charted where
  lanes := Store.lanes_of_no_processor
    (fun v p h => by
      rw [Store.processorAt_eq_ok, Store.get_eq_error (by simp [Scheduler.new, Store.withLimit])] at h
      cases h)
    fun u un h => by
      rw [Store.unitAt_eq_ok, Store.get_eq_error (by simp [Scheduler.new, Store.withLimit])] at h
      cases h
  root _ h := by simp [Scheduler.new] at h
  barriers _ h := by simp [Scheduler.new] at h

namespace Run

theorem run_eq_of_guarded_ok {α : Type} {x : Run α} {a : α}
    (h : (guarded x).run.run s = (.ok a, s')) : x.run.run s = (.ok a, s') := by
  rcases hx : x.run.run s with ⟨e | b, s''⟩
  · rw [run_guarded_error hx] at h
    cases h
  · rw [run_guarded_ok hx] at h
    exact h

/-- What an assignment that succeeds found: a free processor node, a unit not yet placed, and
room for the processor's next node. -/
theorem assign_ok {p u : Nat} (h : (assign p u).run.run s = (.ok (), s')) :
    ∃ node op un ou, s.store.slots[p]? = some ⟨.processor node, op⟩ ∧ node.occupied = false ∧
      s.store.slots[u]? = some ⟨.unit un, ou⟩ ∧ un.processor = none ∧ p ≠ u ∧
      s.store.size < s.store.limit := by
  unfold assign at h
  rw [run_get_bind] at h
  cases hp : s.store.processorAt p with
  | error e =>
    rw [hp, run_liftStore_error_bind] at h
    cases h
  | ok node =>
    obtain ⟨op, hps⟩ := Store.slot_of_processorAt hp
    rw [hp, run_liftStore_ok_bind] at h
    cases hocc : node.occupied
    · simp only [hocc, Bool.false_eq_true, if_false, run_modifyStore_bind, run_get_bind] at h
      set st₁ := s.store.setNode p (.processor { node with occupied := true })
      cases hu : st₁.unitAt u with
      | error e =>
        rw [hu, run_liftStore_error_bind] at h
        cases h
      | ok un =>
        obtain ⟨ou, hus⟩ := Store.slot_of_unitAt hu
        have hpu : p ≠ u := by
          rintro rfl
          rw [Store.getElem?_setNode, if_pos rfl, hps] at hus
          cases hus
        have hus' : s.store.slots[u]? = some ⟨.unit un, ou⟩ := by
          rwa [Store.getElem?_setNode, if_neg hpu] at hus
        rw [hu, run_liftStore_ok_bind] at h
        cases hsch : un.processor with
        | some k =>
          simp only [UnitNode.isScheduled, hsch, Option.isSome_some, ↓reduceIte, run_throw_bind] at h
          cases h
        | none =>
          refine ⟨node, op, un, ou, hps, hocc, hus', hsch, hpu, ?_⟩
          refine Nat.lt_of_not_le fun hfull => ?_
          simp only [UnitNode.isScheduled, hsch, Option.isSome_none, Bool.false_eq_true, if_false,
            run_modifyStore_bind, run_modifyStats_bind] at h
          rw [run_bind_error (run_addVertex_full _ (by simpa [st₁] using hfull))] at h
          cases h
    · simp only [hocc, if_true, run_throw_bind] at h
      cases h

theorem run_bind_eq_ok {α β : Type} {x : Run α} {f : α → Run β} {b : β}
    (h : (x >>= f).run.run s = (.ok b, s')) :
    ∃ a s₁, x.run.run s = (.ok a, s₁) ∧ (f a).run.run s₁ = (.ok b, s') := by
  rcases hx : x.run.run s with ⟨e | a, s₁⟩
  · rw [run_bind_error hx] at h
    cases h
  · rw [run_bind_ok hx] at h
    exact ⟨a, s₁, rfl, h⟩

theorem enter_eq_ok {step : Step} {expected : Phase} {a : Unit}
    (h : (enter step expected).run.run s = (.ok a, s')) : s' = s := by
  unfold enter at h
  rw [run_get_bind] at h
  split at h
  · rw [run_throw] at h
    cases h
  · split at h
    · rw [run_pure] at h
      cases h
      rfl
    · rw [run_throw] at h
      cases h

theorem finishStep_eq_ok {α : Type} {next : Phase} {x : Run α} {a : α}
    (h : (finishStep next x).run.run s = (.ok a, s')) :
    ∃ s₁, x.run.run s = (.ok a, s₁) ∧ s' = { s₁ with phase := next } := by
  rcases hx : x.run.run s with ⟨e | b, s₁⟩
  · rw [run_finishStep_error hx] at h
    cases h
  · rw [run_finishStep_ok hx] at h
    cases h
    exact ⟨s₁, rfl, rfl⟩

theorem rootVertex_eq_ok {i : Nat} {t : Double} (h : rootVertex.run.run s = (.ok (i, t), s')) :
    s' = s ∧ s.root = some i ∧ s.store.rootAt i = .ok t := by
  unfold rootVertex at h
  rw [run_get_bind] at h
  cases hroot : s.root with
  | none =>
    rw [hroot] at h
    cases h
  | some ri =>
    rw [hroot] at h
    dsimp only at h
    cases hr : s.store.rootAt ri with
    | error e =>
      rw [hr] at h
      cases h
    | ok t' =>
      rw [hr] at h
      cases h
      exact ⟨rfl, rfl, hr⟩

end Run

theorem Scheduler.Charted.of_lanes (hc : s.Charted) (hk : s.store.Keeps s'.store)
    (hl : s'.store.Lanes s'.processors) (hr : s'.root = s.root) (hb : s'.barriers = s.barriers) :
    s'.Charted where
  lanes := hl
  root rt hrt := hk.hasKind (hc.root rt (hr ▸ hrt))
  barriers bs hbs :=
    ⟨hk.hasKind (hc.barriers bs (hb ▸ hbs)).1, hk.hasKind (hc.barriers bs (hb ▸ hbs)).2⟩

namespace Run

/-- The creation of processors, when it succeeds from a charted run without processors, leaves
the run charted with one first node per processor. -/
theorem charted_createProcessors {count : Nat} (hc : s.Charted) (hcl : s.store.Closed)
    (hp : s.processors = #[]) (h : (createProcessors count).run.run s = (.ok (), s')) :
    s'.Charted ∧ s'.processors.size = count := by
  unfold createProcessors at h
  obtain ⟨_, s₁, he, hrest⟩ := run_bind_eq_ok h
  obtain rfl := enter_eq_ok he
  dsimp only at hrest
  split at hrest
  · rw [run_throw_bind] at hrest
    cases hrest
  obtain ⟨s₂, hbody, rfl⟩ := finishStep_eq_ok hrest
  obtain ⟨⟨root, time⟩, s₃, hrv, hloop⟩ := run_bind_eq_ok hbody
  obtain ⟨rfl, hroot, hrt⟩ := rootVertex_eq_ok hrv
  dsimp only at hloop
  rw [Std.Legacy.Range.forIn_eq_forIn_range'] at hloop
  have hrange : List.range' [:count].start [:count].size [:count].step = List.range count := by
    simp [Std.Legacy.Range.size, List.range_eq_range']
  rw [hrange] at hloop
  obtain ⟨_, s₄, hfor, hpure⟩ := run_bind_eq_ok hloop
  rw [run_pure, Prod.mk.injEq] at hpure
  obtain ⟨-, rfl⟩ := hpure
  obtain ⟨ro, hro⟩ := Store.slot_of_rootAt hrt
  have hR : s₄.Charted ∧ s₄.store.Closed ∧ s₄.processors.size = (List.range count).length ∧
      s₄.store.HasKind root .root := by
    refine (Returns.forIn (E := fun _ => True) (fun i s => s.Charted ∧ s.store.Closed ∧
      s.processors.size = i ∧ s.store.HasKind root .root) ⟨hc, hcl, by simp [hp], _, hro, rfl⟩
      fun i hi s hI => ?_).of_eq_ok hfor
    rw [List.getElem_range]
    obtain ⟨hci, hcli, rfl, ⟨⟨n, out⟩, hslot, hk⟩⟩ := hI
    cases n <;> cases hk
    rename_i t
    by_cases hroom : s.store.size < s.store.limit
    · have hn : (s.store.append (.processor ⟨s.processors.size, time, false⟩)).slots[s.store.size]? =
          some { node := .processor ⟨s.processors.size, time, false⟩ } := by
        rw [Store.getElem?_append, if_pos rfl]
      have hlt : root < s.store.size := (Array.getElem?_eq_some_iff.1 hslot).1
      have hr : (s.store.append (.processor ⟨s.processors.size, time, false⟩)).slots[root]? =
          some ⟨.root t, out⟩ := by
        rw [Store.getElem?_append, if_neg (Nat.ne_of_lt hlt), hslot]
      have hreact : react .root .processor root s.store.size = pure () := rfl
      have hcheck : (s.store.append (.processor ⟨s.processors.size, time, false⟩)).checkEdge .root
          .processor root s.store.size = .ok () := Store.checkEdge_eq hr rfl hn rfl
      have hedge := run_addEdge (s := { s with
          store := s.store.append (.processor ⟨s.processors.size, time, false⟩)
          stats := s.stats.noteVertex .processor }) hcheck
      rw [hreact] at hedge
      refine Returns.bind_ok (run_addVertex _ hroom) ?_
      refine Returns.bind_ok (hedge.trans (run_guarded_ok rfl)) ?_
      refine Returns.bind_ok (run_modify _ _) (Returns.pure ⟨rfl, ?_, ?_, by simp, ?_⟩)
      · exact hci.of_lanes ((Store.Keeps.append _).trans (.appendEdge _ _))
          (hci.lanes.addProcessor hcli (Store.get_eq hslot) rfl) rfl rfl
      · exact (hcli.append _).appendEdge _ (by simp)
      · exact ((Store.Keeps.append _).trans (.appendEdge _ _)).hasKind ⟨_, hslot, rfl⟩
    · exact Returns.of_error (run_bind_error (run_addVertex_full _ (Nat.not_lt.1 hroom))) trivial
  exact ⟨⟨hR.1.lanes, hR.1.root, hR.1.barriers⟩, by simpa using hR.2.2.1⟩

end Run

namespace Scheduler.Sound

variable {p u : Nat} {node : ProcessorNode} {un : UnitNode} {op ou : Array Nat}

/-- The store a placement leaves before readiness spreads is sound, when nothing can release the
unit any more. -/
theorem placing (hs : s.Sound r []) (hp : s.store.slots[p]? = some ⟨.processor node, op⟩)
    (hu : s.store.slots[u]? = some ⟨.unit un, ou⟩) (hsch : un.processor = none)
    (hu0 : s.store.feeds [] u = 0) (hst : s'.store = s.store.placing p u node un)
    (hq : s'.queue = s.queue) : s'.Sound r [] := by
  have hpu : p ≠ u := fun h => by rw [h, hu] at hp; cases hp
  have hs0 : un.isScheduled = false := by simp [UnitNode.isScheduled, hsch]
  have h₁ : ({ s with store := s.store.appendEdge p u } : Scheduler).Sound r [] :=
    hs.appendEdge hp hu (fun ho => absurd ho (by simp [Slot.isOpen])) rfl rfl
  have hp₁ : (s.store.appendEdge p u).slots[p]? = some ⟨.processor node, op.push u⟩ := by
    rw [Store.getElem?_appendEdge, if_pos rfl, hp]
    rfl
  have hu₁ : (s.store.appendEdge p u).slots[u]? = some ⟨.unit un, ou⟩ := by
    rw [Store.getElem?_appendEdge, if_neg hpu, hu]
  have h₂ : ({ s with store := ((s.store.appendEdge p u).setNode p
      (.processor { node with occupied := true })) } : Scheduler).Sound r [] :=
    h₁.setNode hp₁ (hs.nodes p _ hp).occupy.1 rfl rfl (fun _ h => by cases h) rfl rfl
  have hu₂ : ((s.store.appendEdge p u).setNode p
      (.processor { node with occupied := true })).slots[u]? = some ⟨.unit un, ou⟩ := by
    rw [Store.getElem?_setNode, if_neg hpu, hu₁]
  have hf₂ : ((s.store.appendEdge p u).setNode p
      (.processor { node with occupied := true })).feeds [] u = 0 := by
    rw [Store.feeds_setNode (n := .processor { node with occupied := true }) hp₁ rfl rfl,
      Store.feeds_appendEdge hp, hu0]
    simp [Slot.isOpen]
  have hpl := (hs.nodes u _ hu).place hs0 node
  have h₃ : ({ s with store := (((s.store.appendEdge p u).setNode p
      (.processor { node with occupied := true })).setNode u (.unit (Run.placedUnit un node))) } :
        Scheduler).Sound r [] :=
    h₂.setNode hu₂ hpl.1 rfl rfl (fun _ _ _ => hf₂) rfl rfl
  have h₄ : ({ s with store := ((((s.store.appendEdge p u).setNode p
      (.processor { node with occupied := true })).setNode u (.unit (Run.placedUnit un node))).append
        (.processor ⟨node.processor, (Run.placedUnit un node).timing.finish, false⟩)) } :
          Scheduler).Sound r [] :=
    h₃.append hpl.2.2 rfl rfl
  have hlt : u < s.store.size := (Array.getElem?_eq_some_iff.1 hu).1
  have hu₄ : ((((s.store.appendEdge p u).setNode p
      (.processor { node with occupied := true })).setNode u (.unit (Run.placedUnit un node))).append
        (.processor ⟨node.processor, (Run.placedUnit un node).timing.finish, false⟩)).slots[u]? =
          some ⟨.unit (Run.placedUnit un node), ou⟩ := by
    rw [Store.getElem?_append, if_neg (by simpa using Nat.ne_of_lt hlt), Store.getElem?_setNode,
      if_pos rfl, hu₂]
    rfl
  have hn₄ : ((((s.store.appendEdge p u).setNode p
      (.processor { node with occupied := true })).setNode u (.unit (Run.placedUnit un node))).append
        (.processor ⟨node.processor, (Run.placedUnit un node).timing.finish, false⟩)).slots[
          s.store.size]? = some ⟨.processor ⟨node.processor,
            (Run.placedUnit un node).timing.finish, false⟩, #[]⟩ := by
    rw [Store.getElem?_append, if_pos (by simp)]
  exact h₄.appendEdge hu₄ hn₄ (fun ho => absurd ho (by simp [Slot.isOpen])) hst hq

end Scheduler.Sound

theorem Store.keeps_placing {st : Store} {p u : Nat} {node : ProcessorNode} {un : UnitNode}
    (hp : st.processorAt p = .ok node) (hu : st.unitAt u = .ok un) :
    st.Keeps (st.placing p u node un) := by
  have hkind : ∀ {i : Nat} {n : Node}, st.get i = .ok n → ∀ {st' : Store}, st.Keeps st' →
      ∀ slot, st'.slots[i]? = some slot → slot.node.kind = n.kind := by
    intro i n hn st' hk slot hslot
    obtain ⟨out, hs⟩ := Store.slot_of_get hn
    obtain ⟨slot', hs', hk'⟩ := hk i _ hs
    rw [hslot] at hs'
    cases hs'
    exact hk'
  have h₀ : st.Keeps (st.appendEdge p u) := .appendEdge _ _
  have h₁ : st.Keeps ((st.appendEdge p u).setNode p (.processor { node with occupied := true })) :=
    h₀.trans (.setNode (hkind (Store.processorAt_eq_ok.1 hp) h₀))
  have h₂ : st.Keeps (((st.appendEdge p u).setNode p (.processor { node with occupied := true })).setNode
      u (.unit (Run.placedUnit un node))) :=
    h₁.trans (.setNode (hkind (Store.unitAt_eq_ok.1 hu) h₁))
  unfold Store.placing
  exact h₂.trans ((Store.Keeps.append _).trans (.appendEdge _ _))

namespace Run

variable {p u : Nat}

theorem checkEdge_of_addEdge_ok {fk tk : NodeKind} {src dst : Nat}
    (h : (addEdge fk tk src dst).run.run s = (.ok (), s')) :
    s.store.checkEdge fk tk src dst = .ok () := by
  cases hc : s.store.checkEdge fk tk src dst with
  | ok _ => rfl
  | error e =>
    unfold addEdge at h
    rw [run_guarded_error (run_bind_error (run_recordEdge_error hc))] at h
    cases h

/-- A placement that succeeds from a sound and charted run leaves the run charted. -/
theorem charted_place (hs : s.Sound r []) (hc : s.Charted) (hu0 : s.store.feeds [] u = 0)
    (h : (addEdge .processor .unit p u).run.run s = (.ok (), s')) :
    s'.Charted ∧ s'.processors = s.processors := by
  rw [run_addEdge (checkEdge_of_addEdge_ok h)] at h
  have hassign := run_eq_of_guarded_ok h
  obtain ⟨node, op₁, un, ou₁, hp, hfree, hu, hsch, hpu, hroom⟩ := assign_ok hassign
  obtain ⟨st, hrun⟩ := run_assign hp hfree hu hsch hpu hroom
  replace hrun := hrun.symm.trans hassign
  obtain ⟨⟨_, op⟩, hp₀, rfl⟩ := Store.node_of_appendEdge hp
  obtain ⟨⟨_, ou⟩, hu₀, rfl⟩ := Store.node_of_appendEdge hu
  have hpAt := Store.processorAt_eq hp₀
  have huAt := Store.unitAt_eq hu₀
  obtain ⟨s₂, stack, hrun, hst, hq, hpr, hroot, hbar, hstack⟩ : ∃ (s₂ : Scheduler) (stack : List (Nat × Nat)),
      (drain stack).run.run s₂ = (.ok (), s') ∧ s₂.store = s.store.placing p u node un ∧
      s₂.queue = s.queue ∧ s₂.processors = s.processors ∧ s₂.root = s.root ∧
      s₂.barriers = s.barriers ∧ stack = (ou₁.push s.store.size).toList.map (u, ·) :=
    ⟨_, _, hrun, by simp only [Store.placing, Store.size_appendEdge], rfl, rfl, rfl, rfl,
      by rw [Store.size_appendEdge]⟩
  have hs₂ : s₂.Sound r [] := hs.placing hp₀ hu₀ hsch hu0 hst hq
  have hle : node.ready.le (Run.placedUnit un node).timing.ready = true := by
    have hnan := Double.isNaN_eq_false_of_le_right (hs.nodes p _ hp₀ : r.le node.ready)
    simpa only [Run.placedUnit, Timing.advance_ready] using Double.le_maxNum_right un.timing.ready hnan
  have hc₂ : s₂.Charted := hc.of_lanes (hst ▸ Store.keeps_placing hpAt huAt)
    (by rw [hst, hpr]; exact hc.lanes.placing hs.closed hpAt hfree huAt hsch hle) hroot hbar
  have hub : s₂.store.isBarrier u = false := by
    have hlt := (Array.getElem?_eq_some_iff.1 hu₀).1
    have hget := @Store.get_placing s.store p u node un (Array.getElem?_eq_some_iff.1 hp₀).1 hlt u
    rw [if_neg (show u ≠ s.store.size from Nat.ne_of_lt hlt), if_pos rfl] at hget
    obtain ⟨out, hslot⟩ := Store.slot_of_get hget
    simp [Store.isBarrier, hst, hslot, Node.kind]
  have hz : ∀ v, s₂.store.stackFeeds stack v = 0 := by
    intro v
    rw [hstack, Store.stackFeeds_outEdges, hub]
    rfl
  have hstill := still_drain (by simpa using hs₂.extend hz)
  rw [hrun] at hstill
  exact ⟨hstill.charted hs₂.closed hc₂, hstill.processors.trans hpr⟩

/-- The assignment rounds that succeed, from a sound and charted run, leave it charted with the
same processors: each round places a queued unit, which nothing can release any more. -/
theorem charted_dispatchWith (fuel : Nat) {s s' : Scheduler} (hs : s.Sound r []) (hc : s.Charted)
    (h : (dispatchWith fuel).run.run s = (.ok (), s')) :
    s'.Charted ∧ s'.processors = s.processors := by
  induction fuel generalizing s with
  | zero =>
    cases h
    exact ⟨hc, rfl⟩
  | succ fuel ih =>
    cases hq : s.queue.entries with
    | nil =>
      rw [run_dispatchWith_nil fuel hq] at h
      cases h
      exact ⟨hc, rfl⟩
    | cons e rest =>
      have he : s.store.feeds [] e.vertex = 0 :=
        (hs.queued e (by rw [hq]; exact List.mem_cons_self)).2
      cases hp : s.store.earliestFree with
      | none =>
        simp only [dispatchWith, run_get_bind, ReadyQueue.pop?_of_entries_cons hq, run_set_bind, hp] at h
        cases hu : s.store.unitAt e.vertex with
        | error err =>
          rw [hu, run_liftStore_error_bind] at h
          cases h
        | ok un =>
          rw [hu, run_liftStore_ok_bind, run_throw] at h
          cases h
      | some p =>
        rw [run_dispatchWith_cons fuel hq hp] at h
        obtain ⟨_, s₁, hadd, hrest⟩ := run_bind_eq_ok h
        have hs₀ : ({ s with queue := ⟨⟨rest⟩, s.queue.nextSeq⟩ } : Scheduler).Sound r [] :=
          hs.mono rfl fun e' he' => by rw [hq]; exact List.mem_cons_of_mem _ he'
        have hon : ({ s with queue := ⟨⟨rest⟩, s.queue.nextSeq⟩ } : Scheduler).Onward r
            ((addEdge .processor .unit p e.vertex).run.run { s with queue := ⟨⟨rest⟩, s.queue.nextSeq⟩ }).2 :=
          onward_addEdge hs₀ he
        rw [hadd] at hon
        obtain ⟨hc₁, hp₁⟩ := charted_place hs₀ ⟨hc.lanes, hc.root, hc.barriers⟩ he hadd
        obtain ⟨hc', hp'⟩ := ih hon.1 hc₁ hrest
        exact ⟨hc', hp'.trans hp₁⟩

theorem charted_listSchedule (hs : s.Sound r []) (hc : s.Charted)
    (h : listSchedule.run.run s = (.ok (), s')) :
    s'.Charted ∧ s'.processors = s.processors ∧ s'.store.unassigned = [] ∧ s'.phase = .done := by
  unfold listSchedule at h
  obtain ⟨_, s₁, he, hrest⟩ := run_bind_eq_ok h
  obtain rfl := enter_eq_ok he
  obtain ⟨s₂, hbody, rfl⟩ := finishStep_eq_ok hrest
  rw [run_get_bind] at hbody
  obtain ⟨_, s₃, hd, hleft⟩ := run_bind_eq_ok hbody
  rw [run_get_bind] at hleft
  dsimp only at hleft
  split at hleft
  · rw [run_throw] at hleft
    cases hleft
  · rename_i hempty
    rw [run_pure] at hleft
    cases hleft
    obtain ⟨hc₃, hp₃⟩ := charted_dispatchWith _ hs hc hd
    exact ⟨⟨hc₃.lanes, hc₃.root, hc₃.barriers⟩, hp₃, by simpa using hempty, rfl⟩

end Run

end ListScheduling
