import ListScheduling.Proofs.Refinement.Outcome
import ListScheduling.Proofs.Direct.Times
import ListScheduling.Scheduler.Plan

/-!
The plan of a finished run: its entries are the units with their processors and times, and the time
invariant of the direct scheduler fixes the task spans and the makespan.
-/
namespace ListScheduling

section Lists

variable {α β γ ε : Type}

theorem mapM_eq_ok_of_forall {f : α → Except ε β} {g : α → β} {l : List α}
    (h : ∀ x ∈ l, f x = .ok (g x)) : l.mapM f = .ok (l.map g) := by
  induction l with
  | nil => rfl
  | cons x l ih =>
    rw [List.mapM_cons, h x List.mem_cons_self, ih fun y hy => h y (List.mem_cons_of_mem _ hy)]
    rfl

theorem exists_mapM_eq_ok {f : α → Except ε β} {l : List α} (h : ∀ x ∈ l, ∃ y, f x = .ok y) :
    ∃ ys, l.mapM f = .ok ys := by
  induction l with
  | nil => exact ⟨[], rfl⟩
  | cons x l ih =>
    obtain ⟨y, hy⟩ := h x List.mem_cons_self
    obtain ⟨ys, hys⟩ := ih fun z hz => h z (List.mem_cons_of_mem _ hz)
    exact ⟨y :: ys, by rw [List.mapM_cons, hy, hys]; rfl⟩

theorem exists_bind_mapM_eq_ok {f : α → Except ε β} {l : List α} {k : List β → Except ε γ}
    {Q : γ → Prop} (hf : ∀ x ∈ l, ∃ y, f x = .ok y) (hk : ∀ ys, ∃ c, k ys = .ok c ∧ Q c) :
    ∃ c, (l.mapM f >>= k) = .ok c ∧ Q c := by
  obtain ⟨ys, hys⟩ := exists_mapM_eq_ok hf
  rw [hys]
  exact hk ys

theorem ok_bind (x : α) (k : α → Except ε β) : (Except.ok x >>= k) = k x := rfl

end Lists

namespace Store

theorem processorAt_of_lastEdgeInto {s : Store} {i j : Nat}
    (h : s.lastEdgeInto i .processor = some j) : ∃ p, s.processorAt j = .ok p := by
  unfold lastEdgeInto at h
  have hk := List.find?_some h
  cases hs : s.slots[j]? with
  | none => simp [hs] at hk
  | some slot =>
    rw [hs] at hk
    obtain ⟨n, out⟩ := slot
    cases n <;> simp [Node.kind] at hk
    exact ⟨_, processorAt_eq hs⟩

theorem walkFrom_ok {s : Store} (fuel : Nat) {node : Nat} (h : ∃ p, s.processorAt node = .ok p) :
    ∃ l, s.walkFrom fuel node = .ok l := by
  induction fuel generalizing node with
  | zero => exact ⟨[], rfl⟩
  | succ fuel ih =>
    obtain ⟨p, hp⟩ := h
    rw [walkFrom, hp, ok_bind]
    split
    · exact ⟨[], rfl⟩
    · split
      · exact ⟨[], rfl⟩
      · rename_i u _
        split
        · exact ⟨[u], rfl⟩
        · rename_i next hnext
          obtain ⟨l, hl⟩ := ih (processorAt_of_lastEdgeInto hnext)
          exact ⟨u :: l, by rw [hl]; rfl⟩

end Store

namespace Direct

variable {P : Problem} {s : Scheduler} {ρ : State}

/-- The node of unit `u` in the layout of `ρ`. -/
def unitNode (P : Problem) (ρ : State) (u : UnitId) : UnitNode :=
  ⟨u, P.execTime u, (ρ.unit u).timing, (ρ.unit u).processor⟩

/-- The earliest ready time of the units of `t`, `+∞` when it has none. -/
def earliestReady (P : Problem) (ρ : State) (t : Nat) : Double :=
  ((List.range (P.unitCount t)).map fun k => (ρ.unit ⟨t, k⟩).timing.ready).foldl Double.minNum
    Double.inf

/-- The span of task `t` in the state `ρ`: from the earliest ready time of its units, or its
begin time when that is `+∞`, to its end time. -/
def spanOf (P : Problem) (ρ : State) (t : Nat) : Double × Double :=
  (if (earliestReady P ρ t).numEq Double.inf then (ρ.task t).beginTime else earliestReady P ρ t,
    (ρ.task t).endTime)

/-- The plan entry of a unit at a vertex. -/
def entryOf (P : Problem) (ρ : State) (x : UnitId × Nat) : PlanEntry :=
  ⟨x.2, x.1, (ρ.unit x.1).processor.getD 0, (ρ.unit x.1).timing.ready,
    (ρ.unit x.1).timing.finish, P.execTime x.1⟩

theorem Problem.execTime_isValidTime (hx : ∀ t < P.size, ∀ x ∈ P.unitTimes t, x.isValidTime = true)
    {u : UnitId} (hu : P.Valid u) : (P.execTime u).isValidTime = true := by
  have hk : u.subtask < (P.unitTimes u.task).length := hu.2
  simpa [Problem.execTime, List.getElem?_eq_getElem hk] using hx u.task hu.1 _ (List.getElem_mem hk)

section Readout

/-- The unit nodes of a rendered store, with their vertices: the units in vertex order. -/
theorem Renders.unitNodes (h : Renders P s ρ) {f : Slot × Nat → Option (Nat × UnitNode)}
    (hf : ∀ x, f x = match x.1.node with | .unit u => some (x.2, u) | _ => none) :
    s.store.slots.toList.zipIdx.filterMap f =
      (P.units.zipIdx P.unitBase).map fun x => (x.2, unitNode P ρ x.1) := by
  obtain ⟨out, hout⟩ := h.slots
  rw [hout, layout, List.zipIdx_cons, List.filterMap_cons_none (by rw [hf]; rfl),
    List.zipIdx_append, List.zipIdx_append, List.zipIdx_append, List.filterMap_append,
    List.filterMap_append, List.filterMap_append, List.zipIdx_map_range, List.zipIdx_map_range,
    List.zipIdx_map_range,
    (List.filterMap_eq_nil_iff (l := (List.range P.processors).map _)).2 ?processors,
    (List.filterMap_eq_nil_iff (l := (List.range (2 * P.size)).map _)).2 ?barriers,
    (List.filterMap_eq_nil_iff (l := (List.range ρ.log.length).map _)).2 ?nodes,
    List.nil_append, List.append_nil, List.zipIdx_map, List.filterMap_map]
  case processors =>
    intro x hx
    obtain ⟨σ, -, rfl⟩ := List.mem_map.1 hx
    rw [hf]
    rfl
  case barriers =>
    intro x hx
    obtain ⟨i, -, rfl⟩ := List.mem_map.1 hx
    rw [hf]
    by_cases hi : i % 2 = 0 <;> simp [barrierSlot, hi, entrySlot, exitSlot]
  case nodes =>
    intro x hx
    obtain ⟨j, -, rfl⟩ := List.mem_map.1 hx
    rw [hf]
    rfl
  have hbase : 0 + 1 + ((List.range P.processors).map (processorSlot P ρ) ++
      (List.range (2 * P.size)).map (barrierSlot P ρ)).length = P.unitBase := by
    simp only [List.length_append, List.length_map, List.length_range, Problem.unitBase]
    omega
  rw [hbase, List.nil_append, ← List.filterMap_eq_map]
  refine List.filterMap_congr fun x _ => ?_
  rw [Function.comp_apply, hf]
  rfl

theorem Renders.earliestUnitStart (h : Renders P s ρ) {t : Nat} (ht : t < P.size) :
    s.store.earliestUnitStart (P.entryVertex t) = earliestReady P ρ t := by
  unfold Store.earliestUnitStart earliestReady
  rw [h.entry ht]
  simp only [Option.map_some, Option.getD_some, entrySlot]
  unfold Problem.entryOut
  split
  · rename_i h0
    simp [h0, h.exit ht, exitSlot]
  · rw [List.foldl_map, List.foldl_map]
    refine List.foldl_ext _ _ _ fun m k hk => ?_
    have hu : P.Valid ⟨t, k⟩ := ⟨ht, List.mem_range.1 hk⟩
    simp [h.unit hu, unitSlot]

/-- A done run that renders a state with every unit placed has a plan: it starts at the
release time, lists the units in vertex order, and spans each task as `spanOf` says. -/
theorem Renders.plan (h : Renders P s ρ) (hph : s.phase = .done)
    (hplaced : ∀ u, P.Valid u → (ρ.unit u).processor.isSome = true) :
    ∃ p, s.plan = .ok p ∧ p.startTime = P.release ∧
      p.entries.toList = (P.units.zipIdx P.unitBase).map (entryOf P ρ) ∧
      p.spans.toList = (List.range P.size).map (spanOf P ρ) := by
  have hget : s.store.get 0 = .ok (.root P.release) := by
    obtain ⟨out, hout⟩ := h.root_slot
    simp [Store.get, hout, rootSlot]
  unfold Scheduler.plan
  simp only [hph, h.root, hget]
  rw [show ((fun x => x.finishTime) <$> Except.mapError RunError.store
      (Except.ok (Node.root P.release)) : Except RunError Double) = .ok P.release from rfl,
    ok_bind, h.unitNodes ?nodes]
  case nodes => exact fun _ => rfl
  -- every unit is placed, so every entry reads
  rw [mapM_eq_ok_of_forall (g := fun y => ⟨y.1, y.2.id, y.2.processor.getD 0, y.2.timing.ready,
    y.2.timing.finish, y.2.execTime⟩) ?entries, ok_bind]
  case entries =>
    intro y hy
    obtain ⟨x, hx, rfl⟩ := List.mem_map.1 hy
    obtain ⟨k, hk⟩ := Option.isSome_iff_exists.1
      (hplaced _ (P.mem_units.1 (List.fst_mem_of_mem_zipIdx hx)))
    simp only [unitNode, hk]
    rfl
  refine exists_bind_mapM_eq_ok (fun first hfirst => ?_) fun tl => ?_
  · rw [h.processors] at hfirst
    obtain ⟨σ, hσ, rfl⟩ := List.mem_map.1 hfirst
    have hslot : s.store.slots[P.stampVertex σ]? = some (processorSlot P ρ σ) :=
      h.stamp (by have := List.mem_range.1 hσ; omega)
    rw [Problem.stampVertex, if_pos (List.mem_range.1 hσ)] at hslot
    obtain ⟨l, hl⟩ := Store.walkFrom_ok (s := s.store) (s.store.size + 1)
      ⟨_, Store.processorAt_eq hslot⟩
    exact ⟨_, by rw [hl]; rfl⟩
  rw [h.barriers, Problem.taskBarriers, List.mapM_map, mapM_eq_ok_of_forall (g := spanOf P ρ) ?spans]
  case spans =>
    intro t ht
    have ht' := List.mem_range.1 ht
    simp only [Function.comp_apply, Store.barrierAt_eq (h.entry ht'),
      Store.barrierAt_eq (h.exit ht'), h.earliestUnitStart ht']
    rfl
  refine ⟨_, rfl, rfl, ?_, by simp⟩
  simp only [List.map_map]
  rfl

end Readout

section Spans

open Double

theorem spanOf_of_unitCount_eq_zero {t : Nat} (h0 : P.unitCount t = 0) :
    spanOf P ρ t = ((ρ.task t).beginTime, (ρ.task t).endTime) := by
  simp [spanOf, earliestReady, h0, numEq_refl (show Double.inf.isNaN = false by decide)]

variable (hI : Inv P ρ []) (h : TimeInv P ρ [])
include hI h

/-- The start of the span of a task whose units are all placed is no later than any of their
ready times and is one of them, unless all of them are `+∞`; then it is the begin time. -/
theorem TimeInv.spanOf_start {t : Nat}
    (hplaced : ∀ k < P.unitCount t, (ρ.unit ⟨t, k⟩).processor.isSome = true) :
    (∀ k < P.unitCount t, (spanOf P ρ t).1.le (ρ.unit ⟨t, k⟩).timing.ready) ∧
      ((∃ k < P.unitCount t, (spanOf P ρ t).1 = (ρ.unit ⟨t, k⟩).timing.ready) ∨
        (∀ k < P.unitCount t, (ρ.unit ⟨t, k⟩).timing.ready = Double.inf) ∧
          (spanOf P ρ t).1 = (ρ.task t).beginTime) := by
  have hb : ∀ k < P.unitCount t, (ρ.task t).beginTime.le (ρ.unit ⟨t, k⟩).timing.ready :=
    fun k hk => (h.placed_unit hI (hplaced k hk)).1
  have hnan : ∀ x ∈ (List.range (P.unitCount t)).map fun k => (ρ.unit ⟨t, k⟩).timing.ready,
      x.isNaN = false := by
    intro x hx
    obtain ⟨k, hk, rfl⟩ := List.mem_map.1 hx
    exact isNaN_eq_false_of_le_right (hb k (List.mem_range.1 hk))
  have hle : ∀ k < P.unitCount t, (earliestReady P ρ t).le (ρ.unit ⟨t, k⟩).timing.ready :=
    fun k hk => (foldl_minNum_le (by decide) hnan).2 _ (List.mem_map_of_mem (List.mem_range.2 hk))
  unfold spanOf
  split
  · rename_i hinf
    -- the earliest ready time is `+∞`, so every one is
    have he : earliestReady P ρ t = Double.inf :=
      (eq_or_isZero_of_numEq hinf).resolve_right fun hz => absurd hz.2 (by decide)
    refine ⟨hb, .inr ⟨fun k hk => ?_, rfl⟩⟩
    have := hle k hk
    rw [he] at this
    exact eq_of_isInf_le isInf_inf (by decide) this
  · rename_i hinf
    refine ⟨hle, .inl ?_⟩
    rcases foldl_minNum_eq_or Double.inf ((List.range (P.unitCount t)).map
      fun k => (ρ.unit ⟨t, k⟩).timing.ready) with he | he
    · exact absurd (show (earliestReady P ρ t).numEq Double.inf from by
        unfold earliestReady
        rw [he]
        exact numEq_refl (by decide)) hinf
    · obtain ⟨k, hk, hk'⟩ := List.mem_map.1 he
      exact ⟨k, List.mem_range.1 hk, hk'.symm⟩

end Spans

/-- What the plan of a finished run from the tasks `L` says about times: its start, its entries, the
span of every task and the makespan. -/
structure PlanTimes (P : Problem) (L : List Nat) (s : Scheduler) (p : Plan) : Prop where
  start : p.startTime = P.release
  entries : ∀ e ∈ p.entries.toList, P.Valid e.id ∧ e.ready.le e.finish
  units : ∀ u, P.Valid u → ∃ e ∈ p.entries.toList, e.id = u
  spanned : ∀ t < P.size, 0 < P.unitCount t → ∃ a b, p.spans[t]? = some (a, b) ∧
    (∀ e ∈ p.entries.toList, e.id.task = t → a.le e.ready ∧ e.finish.le b) ∧
    (∃ e ∈ p.entries.toList, e.id.task = t ∧ b.numEq e.finish) ∧
    ((∃ e ∈ p.entries.toList, e.id.task = t ∧ e.ready ≠ Double.inf) →
      ∃ e ∈ p.entries.toList, e.id.task = t ∧ a = e.ready)
  unitless : ∀ t < P.size, P.unitCount t = 0 → ∃ a b bs entry, p.spans[t]? = some (a, b) ∧
    s.barriers[t]? = some bs ∧ s.store.barrierAt bs.entry = .ok entry ∧
    a = entry.timing.finish ∧ b = if P.Fires L t then a else P.release
  ordered : ∀ t < P.size, P.Fires L t → ∃ a b, p.spans[t]? = some (a, b) ∧ a.le b
  makespan : p.makespan.numEq
    ((p.entries.toList.map (·.finish)).foldl Double.maxNum P.release - P.release)
  finish_le : ∀ e ∈ p.entries.toList, (e.finish - P.release).le p.makespan
  makespan_nonneg : Double.zero.le p.makespan

section Whole

open Double

variable {L : List Nat} (hg : P.graph.WellFormed) (hp : 0 < P.processors)
  (hL : ∀ t ∈ L, t < P.size ∧ P.inDegree t = 0) (hr : P.release.isFinite = true)
  (hx : ∀ t < P.size, ∀ x ∈ P.unitTimes t, x.isValidTime = true)
include hg hp hL hr hx

/-- The plan of a run that renders the end of the direct run, in which every task with units
fires, says what `PlanTimes` says. -/
theorem Renders.planTimes (h : Renders P s (schedule P L))
    (hall : ∀ t < P.size, 0 < P.unitCount t → P.Fires L t) {p : Plan}
    (hstart : p.startTime = P.release)
    (hentries : p.entries.toList = (P.units.zipIdx P.unitBase).map (entryOf P (schedule P L)))
    (hspans : p.spans.toList = (List.range P.size).map (spanOf P (schedule P L))) :
    PlanTimes P L s p := by
  set ρ := schedule P L
  have hI : Inv P ρ [] := Inv.schedule hg L
  have hT : TimeInv P ρ [] := TimeInv.schedule hg (not_isNaN_of_isFinite hr)
    (fun _ hu => P.execTime_isValidTime hx hu) L
  have hrn := not_isNaN_of_isFinite hr
  have hplaced : ∀ u, P.Valid u → (ρ.unit u).processor.isSome = true :=
    fun _ => placed_schedule_of_fires hg hp hL hall
  have hunit : ∀ u, P.Valid u → _ := fun u hu => hT.placed_unit hI (hplaced u hu)
  have hmem : ∀ e ∈ p.entries.toList, P.Valid e.id ∧ e.ready = (ρ.unit e.id).timing.ready ∧
      e.finish = (ρ.unit e.id).timing.finish := by
    intro e he
    rw [hentries] at he
    obtain ⟨x, hx, rfl⟩ := List.mem_map.1 he
    exact ⟨P.mem_units.1 (List.fst_mem_of_mem_zipIdx hx), rfl, rfl⟩
  have hcover : ∀ u, P.Valid u → ∃ e ∈ p.entries.toList, e.id = u := by
    intro u hu
    have hu' : u ∈ (P.units.zipIdx P.unitBase).map Prod.fst := by
      rw [List.zipIdx_map_fst]
      exact P.mem_units.2 hu
    obtain ⟨x, hx, rfl⟩ := List.mem_map.1 hu'
    exact ⟨entryOf P ρ x, by rw [hentries]; exact List.mem_map_of_mem hx, rfl⟩
  have hspan : ∀ t < P.size, p.spans[t]? = some (spanOf P ρ t) := by
    intro t ht
    rw [← Array.getElem?_toList, hspans, List.getElem?_map, List.getElem?_range ht]
    rfl
  have hentry : ∀ t < P.size, s.barriers[t]? = some ⟨P.entryVertex t, P.exitVertex t⟩ ∧
      s.store.barrierAt (P.entryVertex t) =
        .ok ⟨(ρ.task t).remaining, .since (ρ.task t).beginTime, (ρ.task t).begun⟩ :=
    fun t ht => ⟨h.barrier_at ht, Store.barrierAt_eq (h.entry ht)⟩
  set ME := ((List.range P.size).map fun t => (ρ.task t).endTime).foldl Double.maxNum P.release
  set MF := (p.entries.toList.map (·.finish)).foldl Double.maxNum P.release
  have hEn : ∀ x ∈ (List.range P.size).map fun t => (ρ.task t).endTime, x.isNaN = false := by
    intro x hx
    obtain ⟨t, -, rfl⟩ := List.mem_map.1 hx
    exact isNaN_eq_false_of_le_right (hT.end_ge t)
  have hFn : ∀ x ∈ p.entries.toList.map (·.finish), x.isNaN = false := by
    intro x hx
    obtain ⟨e, he, rfl⟩ := List.mem_map.1 hx
    obtain ⟨hv, -, hf⟩ := hmem e he
    rw [hf]
    exact isNaN_eq_false_of_le_left (hunit _ hv).2.2
  have hME := le_foldl_maxNum hrn hEn
  have hMF := le_foldl_maxNum hrn hFn
  have hfinME : ∀ e ∈ p.entries.toList, e.finish.le ME := by
    intro e he
    obtain ⟨hv, -, hf⟩ := hmem e he
    rw [hf]
    exact Double.le_trans (hunit _ hv).2.2 (hME.2 _ (List.mem_map_of_mem (List.mem_range.2 hv.1)))
  have hendMF : ∀ t, (ρ.task t).endTime.le MF := by
    intro t
    rcases hT.end_attained t with he | ⟨pl, hpl, he⟩
    · rw [he]
      exact hMF.1
    · obtain ⟨e, he', hid⟩ := hcover _ (hI.valid_of_logged hpl)
      have hfin : e.finish = pl.finish := by
        rw [(hmem e he').2.2, hid, hI.finish_of_logged hpl]
      rw [he, ← hfin]
      exact hMF.2 _ (List.mem_map_of_mem he')
  have hmk : p.makespan = ME - P.release := by
    simp only [Plan.makespan, ← Array.foldl_toList, hspans, hstart, List.foldl_map, ME]
    rfl
  have hnum : ME.numEq MF := numEq_of_le_of_le
    (foldl_maxNum_le hMF.1 fun x hx => by
      obtain ⟨t, -, rfl⟩ := List.mem_map.1 hx
      exact hendMF t)
    (foldl_maxNum_le hME.1 fun x hx => by
      obtain ⟨e, he, rfl⟩ := List.mem_map.1 hx
      exact hfinME e he)
  refine ⟨hstart, fun e he => ?_, hcover, fun t ht hc => ?_, fun t ht h0 => ?_,
    fun t ht hf => ?_, ?_, fun e he => ?_, ?_⟩
  · obtain ⟨hv, hr', hf⟩ := hmem e he
    rw [hr', hf]
    exact ⟨hv, (hunit _ hv).2.1⟩
  · have hpl : ∀ k < P.unitCount t, (ρ.unit ⟨t, k⟩).processor.isSome = true :=
      fun k hk => hplaced _ ⟨ht, hk⟩
    obtain ⟨hle, hstart'⟩ := hT.spanOf_start hI hpl
    obtain ⟨k, hk, hkf⟩ := hT.end_numEq_finish hI hc hpl
    have hof : ∀ e ∈ p.entries.toList, e.id.task = t → e.id = ⟨t, e.id.subtask⟩ ∧
        e.id.subtask < P.unitCount t := fun e he het => by
      have hk := (hmem e he).1.2
      rw [het] at hk
      exact ⟨by rw [← het], hk⟩
    refine ⟨_, _, hspan t ht, fun e he het => ?_, ?_, ?_⟩
    · obtain ⟨hid, hk'⟩ := hof e he het
      obtain ⟨hv, hr', hf⟩ := hmem e he
      rw [hr', hf, hid]
      exact ⟨hle _ hk', (hunit _ ⟨ht, hk'⟩).2.2⟩
    · obtain ⟨e, he, hid⟩ := hcover ⟨t, k⟩ ⟨ht, hk⟩
      refine ⟨e, he, by rw [hid], ?_⟩
      rw [(hmem e he).2.2, hid]
      exact hkf
    · intro hfin
      rcases hstart' with ⟨k, hk, hks⟩ | ⟨hinf, -⟩
      · obtain ⟨e, he, hid⟩ := hcover ⟨t, k⟩ ⟨ht, hk⟩
        refine ⟨e, he, by rw [hid], ?_⟩
        rw [(hmem e he).2.1, hid]
        exact hks
      · obtain ⟨e, he, het, hne⟩ := hfin
        obtain ⟨hid, hk'⟩ := hof e he het
        exact absurd (by rw [(hmem e he).2.1, hid]; exact hinf _ hk') hne
  · refine ⟨_, _, _, _, hspan t ht, (hentry t ht).1, (hentry t ht).2, ?_, ?_⟩
    · show (spanOf P ρ t).1 = (ρ.task t).beginTime
      rw [spanOf_of_unitCount_eq_zero h0]
    · show (spanOf P ρ t).2 = if P.Fires L t then (spanOf P ρ t).1 else P.release
      rw [spanOf_of_unitCount_eq_zero h0, hT.end_unitless t h0]
      by_cases hf : P.Fires L t
      · rw [if_pos ((ended_schedule_iff hg hp hL ht).2 hf), if_pos hf]
      · rw [if_neg (by rw [ended_schedule_iff hg hp hL ht]; exact hf), if_neg hf]
  · refine ⟨_, _, hspan t ht, ?_⟩
    by_cases h0 : P.unitCount t = 0
    · show (spanOf P ρ t).1.le (spanOf P ρ t).2
      rw [spanOf_of_unitCount_eq_zero h0, hT.end_unitless t h0,
        if_pos ((ended_schedule_iff hg hp hL ht).2 hf)]
      exact le_refl_of_not_isNaN (isNaN_eq_false_of_le_right (hT.begin_ge t))
    · have hc : 0 < P.unitCount t := Nat.pos_of_ne_zero h0
      have hu := hunit ⟨t, 0⟩ ⟨ht, hc⟩
      exact Double.le_trans ((hT.spanOf_start hI fun k hk => hplaced _ ⟨ht, hk⟩).1 0 hc)
        (Double.le_trans hu.2.1 hu.2.2)
  · rw [hmk]
    exact numEq_sub_of_numEq hnum hr
  · rw [hmk]
    exact sub_le_sub_of_isFinite (hfinME e he) hr
  · rw [hmk]
    exact zero_le_sub_of_le hME.1 hr

end Whole

section Pipeline

variable {split : Split} {limit : Nat}

/-- The plan of a whole run that succeeds, on a store with room for it and started from the
entries or from one task that awaits no input, says what `PlanTimes` says. -/
theorem pipeline_plan_times (hsplit : P.graph.unitTimes split = P.unitTimes)
    (hr : P.release.isFinite = true) (hp : 0 < P.processors) (hg : P.graph.WellFormed)
    (hx : ∀ t < P.size, ∀ x ∈ P.unitTimes t, x.isValidTime = true)
    (hroom : P.nodeBase + P.totalUnits ≤ (Store.withLimit limit).limit)
    (hdeg : ∀ t < P.size, P.inDegree t < BarrierNode.inputLimit) (source : Option Nat)
    (hsrc : ∀ t ∈ source, t < P.size ∧ P.inDegree t = 0) :
    let out := (Run.pipeline P.release P.processors P.graph split source).run.run
      (Scheduler.new P.priority (Store.withLimit limit))
    out.1 = .ok () → ∃ p, out.2.plan = .ok p ∧ PlanTimes P (P.linked source) out.2 p := by
  intro out hdone
  have hL := linked_awaits_nothing hsrc
  have hall := (pipeline_endsAsFiring hsplit hr hp hg hx hroom hdeg source hsrc).fires_of_ok hdone
  have hph := pipeline_done_of_ok hsplit hr hp hg hx hroom hdeg hsrc hdone
  have h := Renders.pipeline hsplit hr hp hg hx hroom hdeg source
  obtain ⟨p, hplan, hstart, hentries, hspans⟩ := h.plan hph fun _ =>
    placed_schedule_of_fires hg hp hL hall
  exact ⟨p, hplan, h.planTimes hg hp hL hr hx hall hstart hentries hspans⟩

/-- A task of one unit, `1.0` long, and a task without units, both before a third task without
units. -/
def stalledJoinGraph : TaskGraph :=
  ⟨#[⟨[⟨0x3FF0000000000000⟩], [2]⟩, ⟨[], [2]⟩, ⟨[], []⟩]⟩

/-- The stalled join on one processor, released at `0.0`, every unit of priority `0.0`. -/
def Problem.stalledJoin : Problem :=
  ⟨stalledJoinGraph, stalledJoinGraph.unitTimes .subtasks, fun _ => Double.zero, 1, Double.zero⟩

theorem pipeline_plan_times_stalledJoin :
    let out := (Run.pipeline Problem.stalledJoin.release 1 stalledJoinGraph .subtasks (some 0)).run.run
      (Scheduler.new Problem.stalledJoin.priority (Store.withLimit 100))
    Problem.stalledJoin.nodeBase + Problem.stalledJoin.totalUnits ≤ (Store.withLimit 100).limit ∧
      out.1 = .ok () ∧ ∃ p, out.2.plan = .ok p ∧
        PlanTimes Problem.stalledJoin (Problem.stalledJoin.linked (some 0)) out.2 p := by
  intro out
  have hdone : out.1 = .ok () := by decide +kernel
  exact ⟨by decide, hdone, pipeline_plan_times rfl (by decide) (by decide)
    (by unfold TaskGraph.WellFormed; decide) (by decide) (by decide) (by decide +kernel) (some 0)
    (fun t ht => by rw [Option.mem_def, Option.some.injEq] at ht; subst ht; decide) hdone⟩

/-- A task without units that never fires still takes inputs. -/
theorem plan_span_of_stalled_task :
    let out := (Run.pipeline Problem.stalledJoin.release 1 stalledJoinGraph .subtasks (some 0)).run.run
      (Scheduler.new Problem.stalledJoin.priority (Store.withLimit 100))
    out.1 = .ok () ∧ ¬ Problem.stalledJoin.Fires [0] 2 ∧
      out.2.plan.map (·.spans[2]?) = .ok (some (⟨0x3FF0000000000000⟩, Double.zero)) := by
  decide +kernel

end Pipeline

end Direct

end ListScheduling
