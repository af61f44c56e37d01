import ListScheduling.Proofs.Refinement.Construction
import ListScheduling.Proofs.Refinement.Dispatch

/-!
The start links the root to begins, and each link fires its begin as the direct scheduler's `start`
does.
-/
namespace ListScheduling.Direct

open Run

variable {P : Problem}

section Reference

variable {ρ : State} {t : Nat}

/-- A delivery leaves alone a begin that awaits nothing. -/
theorem begin_step (h : (ρ.task t).remaining = 0) (ev : Event) :
    ((step P ρ ev).1.task t).remaining = 0 ∧
      ((step P ρ ev).1.task t).begun = (ρ.task t).begun := by
  have hfin : ∀ x f, ((finishInput P ρ x f).1.task t).remaining = 0 ∧
      ((finishInput P ρ x f).1.task t).begun = (ρ.task t).begun := by
    intro x f
    unfold finishInput
    dsimp only
    split
    · by_cases hx : t = x
      · subst hx
        split <;> simp [h]
      · split <;> simp [hx, h]
    · exact ⟨h, rfl⟩
  cases ev with
  | input pred x =>
    simp only [step]
    split
    · rename_i hx
      have hxt : t ≠ x := fun hxt => by subst hxt; omega
      split <;> simp [hxt, h]
    · exact ⟨h, rfl⟩
  | release x k => exact ⟨h, rfl⟩
  | skip x => exact hfin _ _
  | done x k => exact hfin _ _

theorem begin_drain (es : List Event) (h : (ρ.task t).remaining = 0) :
    ((drain P ρ es).task t).remaining = 0 ∧ ((drain P ρ es).task t).begun = (ρ.task t).begun := by
  induction ρ, es using drain.induct P with
  | case1 ρ => rw [drain]; exact ⟨h, rfl⟩
  | case2 ρ ev rest ih =>
    obtain ⟨h₁, h₂⟩ := begin_step h ev
    obtain ⟨h₃, h₄⟩ := ih h₁
    rw [drain]
    exact ⟨h₃, h₄.trans h₂⟩

theorem start_fire (ht : t < P.size) (hb : (ρ.task t).begun = false)
    (hr : (ρ.task t).remaining = 0) :
    start P ρ t = drain P (ρ.setTask t { ρ.task t with
      beginTime := Double.maxNum (ρ.task t).beginTime P.release
      begun := true }) (P.beginEvents t) := by
  simp [start, ht, hb, hr]

theorem start_skip (h : ¬ (t < P.size ∧ (ρ.task t).begun = false ∧ (ρ.task t).remaining = 0)) :
    start P ρ t = ρ := by
  simp only [start]
  rw [if_neg h]

theorem begin_foldl_start {L : List Nat} (hL : t ∉ L) (h : (ρ.task t).remaining = 0) :
    ((L.foldl (start P) ρ).task t).remaining = 0 ∧
      ((L.foldl (start P) ρ).task t).begun = (ρ.task t).begun := by
  induction L generalizing ρ with
  | nil => exact ⟨h, rfl⟩
  | cons x L ih =>
    have hxt : t ≠ x := fun hxt => hL (hxt ▸ List.mem_cons_self)
    have hx : ((start P ρ x).task t).remaining = 0 ∧
        ((start P ρ x).task t).begun = (ρ.task t).begun := by
      by_cases hs : x < P.size ∧ (ρ.task x).begun = false ∧ (ρ.task x).remaining = 0
      · rw [start_fire hs.1 hs.2.1 hs.2.2]
        have := begin_drain (P := P) (P.beginEvents x)
          (ρ := ρ.setTask x { ρ.task x with
            beginTime := Double.maxNum (ρ.task x).beginTime P.release
            begun := true }) (t := t) (by simp [hxt, h])
        simpa [hxt] using this
      · rw [start_skip hs]
        exact ⟨h, rfl⟩
    obtain ⟨h₁, h₂⟩ := ih (fun hm => hL (List.mem_cons_of_mem _ hm)) hx.1
    exact ⟨h₁, h₂.trans hx.2⟩

end Reference

section Root

variable {s : Scheduler} {ρ : State} {t : Nat}

theorem Renders.appendRootEdge (h : Renders P s ρ) (v : Nat) (st : Stats) :
    Renders P { s with store := s.store.appendEdge 0 v, stats := st } ρ where
  toLandmarks := ⟨h.root, h.processors, h.barriers, h.priority⟩
  slots := by
    obtain ⟨out, hout⟩ := h.slots
    exact ⟨out.push v, by rw [Store.toList_appendEdge, hout, layout, List.modify_zero_cons]; rfl⟩
  queue := h.queue
  edges := h.edges.appendEdge 0 v
  room := h.room

/-- The root linked to a begin that awaits nothing: the begin fires at the root's time, and
readiness spreads from it. -/
theorem Renders.releaseRoot (hg : P.graph.WellFormed) (h : Renders P s ρ) (hI : Inv P ρ [])
    (ht : t < P.size) (hb : (ρ.task t).begun = false) (hr : (ρ.task t).remaining = 0) :
    ∃ s', (addEdge .root .barrier 0 (P.entryVertex t)).run.run s = (.ok (), s') ∧
      Renders P s' (start P ρ t) ∧ s'.phase = s.phase := by
  obtain ⟨out, hroot⟩ := h.root_slot
  have hedge : s.store.checkEdge .root .barrier 0 (P.entryVertex t) = .ok () :=
    Store.checkEdge_eq hroot rfl (h.entry ht) rfl
  have h₁ := h.appendRootEdge (P.entryVertex t) { s.stats with edges := s.stats.edges + 1 }
  obtain ⟨out₁, hroot₁⟩ := h₁.root_slot
  have hrel := run_releaseFromRoot hroot₁ (h₁.entry ht) hb hr
  have hstack : ((P.entryOut t).toArray.toList.map (P.entryVertex t, ·)) =
      (P.beginEvents t).map P.edge ++ [] := by
    rw [List.toList_toArray, entryOut_edges, List.append_nil]
  rw [hstack] at hrel
  have hI₂ : Inv P (ρ.setTask t { ρ.task t with
      beginTime := Double.maxNum (ρ.task t).beginTime P.release
      begun := true }) (P.beginEvents t) := by
    rw [← List.append_nil (P.beginEvents t)]
    exact Inv.beginFires [] hI ht hb (fun x => by split <;> simp [hr]) (by simp) (by simp) hr rfl
      rfl rfl
  have htail : ∀ e ∈ ([] : List (Nat × Nat)), OrderEdge P ρ e := by simp
  have hfired : ∀ s₂, (releaseFromRoot 0 (P.entryVertex t)).run.run
        { s with
          store := s.store.appendEdge 0 (P.entryVertex t)
          stats := { s.stats with edges := s.stats.edges + 1 } } =
        (Run.drain ((P.beginEvents t).map P.edge ++ [])).run.run s₂ →
      Renders P s₂ (ρ.setTask t { ρ.task t with
        beginTime := Double.maxNum (ρ.task t).beginTime P.release
        begun := true }) → s₂.phase = s.phase →
      ∃ s', (addEdge .root .barrier 0 (P.entryVertex t)).run.run s = (.ok (), s') ∧
        Renders P s' (start P ρ t) ∧ s'.phase = s.phase := by
    intro s₂ hrel₂ h₂ hph₂
    obtain ⟨s₃, hdrain, h₃, hph₃⟩ := h₂.drain hg hI₂ htail
    refine ⟨s₃, ?_, by rw [start_fire ht hb hr]; exact h₃, hph₃.trans hph₂⟩
    rw [run_addEdge hedge]
    exact run_guarded_ok (hrel₂.trans hdrain)
  refine hfired _ hrel (h₁.setNode ⟨rfl, rfl, rfl, rfl⟩ rfl (fun out => layout_setTask_entry ht
    (by simp [entrySlot, BarrierNode.fire, Timing.advance, Timing.since, hr]) (by simp [exitSlot]))
    h₁.queue) rfl

theorem Renders.releaseRoot_waiting (h : Renders P s ρ) (ht : t < P.size)
    (hb : (ρ.task t).begun = false) (hr : 0 < (ρ.task t).remaining) :
    ∃ s', (addEdge .root .barrier 0 (P.entryVertex t)).run.run s =
      (.error (.rootBarrierNotReady (P.entryVertex t) (ρ.task t).remaining), s') ∧
      Renders P s' ρ ∧ s'.phase = .poisoned := by
  obtain ⟨out, hroot⟩ := h.root_slot
  have hedge : s.store.checkEdge .root .barrier 0 (P.entryVertex t) = .ok () :=
    Store.checkEdge_eq hroot rfl (h.entry ht) rfl
  have h₁ := h.appendRootEdge (P.entryVertex t) { s.stats with edges := s.stats.edges + 1 }
  obtain ⟨out₁, hroot₁⟩ := h₁.root_slot
  have hrel := run_releaseFromRoot_waiting hroot₁ (h₁.entry ht) hb hr
  refine ⟨_, ?_, h₁.withPhase .poisoned, rfl⟩
  rw [run_addEdge hedge]
  exact run_guarded_error hrel

end Root

section Link

variable {s : Scheduler} {ρ : State}

theorem getElem_not_mem_take {L : List Nat} (hL : L.Nodup) {i : Nat} (hi : i < L.length) :
    L[i] ∉ L.take i := by
  intro hm
  have h := hL
  rw [← List.take_append_drop i L, List.drop_eq_getElem_cons hi] at h
  exact (List.nodup_append.1 h).2.2 _ hm _ List.mem_cons_self rfl

theorem Renders.linkEntries (hg : P.graph.WellFormed) (h : Renders P s ρ) (hI : Inv P ρ [])
    {L : List Nat} (hL : L.Nodup)
    (hmem : ∀ t ∈ L, t < P.size ∧ (ρ.task t).remaining = 0 ∧ (ρ.task t).begun = false) :
    Returns (Run.linkEntries (L.map P.entryVertex)) s (fun _ => False)
      fun _ s' => Renders P s' (L.foldl (start P) ρ) ∧ s'.phase = s.phase := by
  obtain ⟨out, hroot⟩ := h.root_slot
  unfold Run.linkEntries
  refine Returns.bind_ok (run_rootVertex h.toLandmarks.root hroot) ?_
  dsimp only
  refine Returns.bind (Returns.forIn (fun i s' =>
      Renders P s' ((L.take i).foldl (start P) ρ) ∧ s'.phase = s.phase) ⟨h, rfl⟩
    fun i hi s' ⟨h', hph⟩ => ?_) fun _ s' hs' => Returns.pure (by simpa using hs')
  have hi' : i < L.length := by simpa using hi
  rw [List.getElem_map]
  obtain ⟨ht, hr, hb⟩ := hmem _ (List.getElem_mem hi')
  obtain ⟨hr', hb'⟩ := begin_foldl_start (P := P) (getElem_not_mem_take hL hi') hr
  obtain ⟨s'', hrun, h'', hph''⟩ :=
    h'.releaseRoot hg (hI.foldl_start hg _) ht (hb'.trans hb) hr'
  refine Returns.bind_ok hrun (Returns.pure ⟨rfl, ?_, hph''.trans hph⟩)
  rw [List.take_add_one, List.getElem?_eq_getElem hi', Option.toList_some, List.foldl_append]
  exact h''

theorem Renders.barrier_at (h : Renders P s ρ) {t : Nat} (ht : t < P.size) :
    s.barriers[t]? = some ⟨P.entryVertex t, P.exitVertex t⟩ := by
  rw [← Array.getElem?_toList, h.barriers, Problem.taskBarriers, List.getElem?_map,
    List.getElem?_range ht]
  rfl

/-- The begins a start from every task reads off their counts: those of the tasks that await no
input, in task order. -/
theorem Renders.scanEntries (h : Renders P s (initial P)) :
    (s.barriers.toList.filterMapM fun bs : TaskBarriers => do
      let bar ← liftStore (s.store.barrierAt bs.entry)
      pure (if bar.waiting = 0 then some bs.entry else none)).run.run s =
      (.ok (P.entries.map P.entryVertex), s) := by
  refine (run_filterMapM (g := fun bs : TaskBarriers =>
      if P.inDegree ((bs.entry - (P.processors + 1)) / 2) = 0 then some bs.entry else none)
    fun bs hbs => ?_).trans ?_
  · rw [h.barriers, Problem.taskBarriers, List.mem_map] at hbs
    obtain ⟨t, ht, rfl⟩ := hbs
    have ht' : t < P.size := List.mem_range.1 ht
    have hidx : (P.entryVertex t - (P.processors + 1)) / 2 = t := by
      simp only [Problem.entryVertex]
      omega
    dsimp only
    rw [Store.barrierAt_eq (h.entry ht'), run_liftStore_ok_bind, run_pure, hidx]
    rfl
  rw [h.barriers, Problem.taskBarriers, List.filterMap_map, Problem.entries,
    ← List.filterMap_ite]
  congr 2
  refine List.filterMap_congr fun t _ => ?_
  have hidx : (P.entryVertex t - (P.processors + 1)) / 2 = t := by
    simp only [Problem.entryVertex]
    omega
  simp [hidx]

theorem Renders.startEntries (hg : P.graph.WellFormed) (h : Renders P s (initial P))
    (hph : s.phase = .tasksInserted) :
    Returns Run.startEntries s (fun _ => False) fun _ s' =>
      Renders P s' (P.entries.foldl (start P) (initial P)) ∧ s'.phase = .started := by
  unfold Run.startEntries
  refine Returns.bind_ok (run_enter hph (by decide)) ?_
  refine Returns.bind_ok (run_get _) ?_
  refine Returns.bind_ok h.scanEntries ?_
  have hmem : ∀ t ∈ P.entries, t < P.size ∧ ((initial P).task t).remaining = 0 ∧
      ((initial P).task t).begun = false := by
    intro t ht
    simp only [Problem.entries, List.mem_filter, List.mem_range, decide_eq_true_eq] at ht
    exact ⟨ht.1, ht.2, rfl⟩
  refine (Returns.finishStep (h.linkEntries hg Inv.initial
    (List.nodup_range.filter _) hmem)).mono
    (fun _ s ⟨s₀, ⟨h₀, _⟩, hs⟩ => hs ▸ ⟨h₀.withPhase _, rfl⟩) fun _ ⟨_, h, _⟩ => h

theorem Renders.linkEntries_waiting (h : Renders P s (initial P)) {t : Nat} (ht : t < P.size)
    (hd : P.inDegree t ≠ 0) :
    ∃ s', (Run.linkEntries [P.entryVertex t]).run.run s =
      (.error (.rootBarrierNotReady (P.entryVertex t) (P.inDegree t)), s') ∧
      Renders P s' (initial P) := by
  obtain ⟨s', hrun, h', -⟩ := h.releaseRoot_waiting ht rfl (by simp [initial]; omega)
  obtain ⟨out, hroot⟩ := h.root_slot
  unfold Run.linkEntries
  rw [run_bind_ok (run_rootVertex h.toLandmarks.root hroot)]
  dsimp only
  rw [List.forIn_cons]
  exact ⟨s', run_bind_error (run_bind_error (run_bind_error hrun)), h'⟩

/-- The start from one task: it goes through when the task is one and awaits no input, and
otherwise stops the run with nothing started. -/
theorem Renders.startSource (hg : P.graph.WellFormed) (h : Renders P s (initial P))
    (hph : s.phase = .tasksInserted) (t : Nat) :
    Returns (Run.start t) s (fun s' => ¬ (t < P.size ∧ P.inDegree t = 0) ∧ Renders P s' (initial P))
      fun _ s' => t < P.size ∧ P.inDegree t = 0 ∧ Renders P s' (start P (initial P) t) ∧
        s'.phase = .started := by
  unfold Run.start
  refine Returns.bind_ok (run_enter hph (by decide)) ?_
  refine Returns.bind_ok (run_get _) ?_
  by_cases ht : t < P.size
  · rw [h.barrier_at ht]
    dsimp only
    by_cases hd : P.inDegree t = 0
    · have hlink := h.linkEntries hg Inv.initial (List.nodup_singleton t)
        (by simp [ht, initial, hd])
      refine (Returns.finishStep hlink).mono ?_ ?_
      · rintro _ s' ⟨s₀, ⟨h₀, -⟩, rfl⟩
        exact ⟨ht, hd, h₀.withPhase _, rfl⟩
      · rintro _ ⟨_, h, -⟩
        exact h.elim
    · obtain ⟨s', hrun, h'⟩ := h.linkEntries_waiting ht hd
      have hlink : Returns (Run.linkEntries [P.entryVertex t]) s
          (fun s' => Renders P s' (initial P)) fun _ _ => False := Returns.of_error hrun h'
      refine (Returns.finishStep hlink).mono ?_ ?_
      · rintro _ _ ⟨_, h, -⟩
        exact h.elim
      · rintro s' ⟨s₀, h₀, rfl⟩
        exact ⟨fun hsrc => hd hsrc.2, h₀.withPhase _⟩
  · have hnone : s.barriers[t]? = none := by
      rw [← Array.getElem?_toList, h.barriers]
      simp [Problem.taskBarriers, ht]
    rw [hnone]
    exact Returns.throw ⟨fun hsrc => ht hsrc.1, h⟩

end Link

end ListScheduling.Direct
