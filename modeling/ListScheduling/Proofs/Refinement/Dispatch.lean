import ListScheduling.Proofs.Refinement.Drain
import ListScheduling.Proofs.Double.Addition

/-!
List scheduling follows the assignments of the direct scheduler.
-/
namespace List

variable {α β : Type}

theorem filterMap_ite (l : List α) (q : α → Bool) (h : α → β) :
    l.filterMap (fun x => if q x then some (h x) else none) = (l.filter q).map h := by
  induction l with
  | nil => rfl
  | cons a l ih => by_cases hq : q a <;> simp [List.filter_cons, hq, ih]

theorem zipIdx_map_range (g : Nat → α) (m n : Nat) :
    ((List.range m).map g).zipIdx n = (List.range m).map fun j => (g j, n + j) := by
  refine List.ext_getElem? fun i => ?_
  by_cases hi : i < m <;> simp [List.getElem?_zipIdx, hi]

end List

namespace ListScheduling

/-- The free processor nodes of a store, in vertex order, as free moments stamped with their
vertex. -/
def Store.freeNodes (st : Store) : List Direct.Free :=
  st.slots.toList.zipIdx.filterMap fun (slot, i) =>
    match slot.node with
    | .processor p => if p.occupied then none else some ⟨p.processor, p.ready, i⟩
    | _ => none

namespace Direct

open Run

section Pick

/-- A free moment as the store's choice sees it: its vertex and its time. -/
def Free.key (f : Free) : Nat × Double := (f.stamp, f.time)

theorem preferFree_key (b : Option Free) (i : Nat) (slot : Slot) :
    Store.preferFree (b.map Free.key) i slot =
      ((match slot.node with
        | .processor p => if p.occupied then b else better b ⟨p.processor, p.ready, i⟩
        | _ => b).map Free.key) := by
  obtain ⟨node, out⟩ := slot
  cases node with
  | processor p =>
    cases hp : p.occupied
    · cases b with
      | none => simp [Store.preferFree, hp, better, Free.key]
      | some c =>
        by_cases hlt : p.ready.totalKey < c.time.totalKey <;>
          simp [Store.preferFree, hp, better, Free.key, hlt]
    · simp [Store.preferFree, hp]
  | root _ | unit _ | barrier _ => rfl

theorem foldl_preferFree (l : List Slot) (i : Nat) (b : Option Free) :
    (l.foldl (fun (acc : Option (Nat × Double) × Nat) slot =>
      (Store.preferFree acc.1 acc.2 slot, acc.2 + 1)) (b.map Free.key, i)).1 =
      (((l.zipIdx i).filterMap fun (slot, j) =>
        match slot.node with
        | .processor p => if p.occupied then none else some (⟨p.processor, p.ready, j⟩ : Free)
        | _ => none).foldl better b).map Free.key := by
  induction l generalizing i b with
  | nil => rfl
  | cons slot l ih =>
    rw [List.foldl_cons, preferFree_key, ih, List.zipIdx_cons, List.filterMap_cons]
    split <;> rename_i hn
    · split
      · simp [hn, *]
      · simp [hn, *]
    · simp [hn]

theorem Store.earliestFree_eq (st : Store) :
    st.earliestFree = (pick st.freeNodes).map (·.stamp) := by
  have h := foldl_preferFree st.slots.toList 0 none
  rw [Option.map_none, Array.foldl_toList] at h
  simp only [Store.earliestFree, Store.freeNodes, pick, h, Option.map_map]
  rfl

theorem better_map {h : Free → Free} (hh : ∀ f, (h f).time = f.time) (b : Option Free) (f : Free) :
    better (b.map h) (h f) = (better b f).map h := by
  cases b with
  | none => rfl
  | some c =>
    simp only [Option.map_some, better, hh]
    split <;> rfl

theorem pick_map {h : Free → Free} (hh : ∀ f, (h f).time = f.time) (l : List Free) :
    pick (l.map h) = (pick l).map h := by
  suffices ∀ b : Option Free, (l.map h).foldl better (b.map h) = (l.foldl better b).map h from
    this none
  induction l with
  | nil => intro b; rfl
  | cons f l ih =>
    intro b
    rw [List.map_cons, List.foldl_cons, better_map hh, ih, List.foldl_cons]

end Pick

variable {P : Problem}

/-- A free moment at the node of its stamp. -/
def Problem.restamp (P : Problem) (f : Free) : Free := ⟨f.processor, f.time, P.stampVertex f.stamp⟩

section FreeNodes

variable {ρ : State}

theorem freeNodes_segment (m n : Nat) (g : Nat → Nat) :
    (((List.range m).map fun j => processorSlot P ρ (g j)).zipIdx n).filterMap
      (fun (x : Slot × Nat) => match x.1.node with
        | .processor p => if p.occupied then none else some (⟨p.processor, p.ready, x.2⟩ : Free)
        | _ => none) =
      ((List.range m).filter fun j => decide (g j ∉ ρ.log.map Placement.taken)).map fun j =>
        ⟨(P.moment ρ.log (g j)).processor, (P.moment ρ.log (g j)).time, n + j⟩ := by
  rw [List.zipIdx_map_range, List.filterMap_map, ← List.filterMap_ite]
  refine List.filterMap_congr fun j _ => ?_
  by_cases hj : g j ∈ ρ.log.map Placement.taken
  · simp only [Function.comp_apply, processorSlot, hj, decide_true, not_true_eq_false,
      decide_false, if_true, Bool.false_eq_true, if_false]
  · simp only [Function.comp_apply, processorSlot, hj, decide_false, not_false_eq_true,
      decide_true, if_true, Bool.false_eq_true, if_false]

theorem freeNodes_none {l : List Slot} (hl : ∀ slot ∈ l, slot.node.kind ≠ .processor) (n : Nat) :
    (l.zipIdx n).filterMap
      (fun (x : Slot × Nat) => match x.1.node with
        | .processor p => if p.occupied then none else some (⟨p.processor, p.ready, x.2⟩ : Free)
        | _ => none) = [] := by
  refine List.filterMap_eq_nil_iff.2 fun x hx => ?_
  have hk := hl x.1 (List.fst_mem_of_mem_zipIdx hx)
  split
  · rename_i p hp
    simp [hp, Node.kind] at hk
  · rfl

/-- The free processor nodes of a layout are the free moments of the state, at their nodes. -/
theorem freeNodes_layout (out : Array Nat) :
    ((layout P ρ out).zipIdx).filterMap
      (fun (x : Slot × Nat) => match x.1.node with
        | .processor p => if p.occupied then none else some (⟨p.processor, p.ready, x.2⟩ : Free)
        | _ => none) = (P.freeMoments ρ.log).map P.restamp := by
  have hB : ∀ slot ∈ (List.range (2 * P.size)).map (barrierSlot P ρ), slot.node.kind ≠ .processor := by
    intro slot hs
    obtain ⟨i, -, rfl⟩ := List.mem_map.1 hs
    unfold barrierSlot
    split <;> simp [entrySlot, exitSlot, Node.kind]
  have hC : ∀ slot ∈ P.units.map (unitSlot P ρ), slot.node.kind ≠ .processor := by
    intro slot hs
    obtain ⟨u, -, rfl⟩ := List.mem_map.1 hs
    simp [unitSlot, Node.kind]
  have hA := freeNodes_segment (P := P) (ρ := ρ) P.processors (0 + 1) fun σ => σ
  have hD := freeNodes_segment (P := P) (ρ := ρ) ρ.log.length
    (0 + 1 + ((List.range P.processors).map (processorSlot P ρ) ++
      (List.range (2 * P.size)).map (barrierSlot P ρ) ++ P.units.map (unitSlot P ρ)).length)
    (P.processors + ·)
  rw [layout, List.zipIdx_cons, List.filterMap_cons, List.zipIdx_append, List.zipIdx_append,
    List.zipIdx_append, List.filterMap_append, List.filterMap_append, List.filterMap_append, hA,
    freeNodes_none hB, freeNodes_none hC, hD]
  simp only [rootSlot, List.append_nil]
  rw [Problem.freeMoments, List.range_add, List.filter_append, List.map_append, List.map_append,
    List.filter_map]
  simp only [List.map_map, Function.comp_def]
  congr 1
  · refine List.map_congr_left fun σ hσ => ?_
    have hσ' : σ < P.processors := List.mem_range.1 (List.mem_filter.1 hσ).1
    simp [Problem.restamp, Problem.stampVertex, hσ', Nat.add_comm]
  · refine List.map_congr_left fun j hj => ?_
    simp only [List.length_append, List.length_map, List.length_range, Problem.length_units,
      Problem.restamp, Problem.moment_stamp, Problem.stampVertex]
    rw [if_neg (by omega)]
    simp only [Problem.nodeBase, Problem.unitBase]
    congr 1
    omega

theorem Renders.freeNodes {s : Scheduler} (h : Renders P s ρ) :
    s.store.freeNodes = (P.freeMoments ρ.log).map P.restamp := by
  obtain ⟨out, hout⟩ := h.slots
  rw [Store.freeNodes, hout, freeNodes_layout]

theorem Renders.earliestFree {s : Scheduler} (h : Renders P s ρ) :
    s.store.earliestFree = (pick (P.freeMoments ρ.log)).map (P.stampVertex ·.stamp) := by
  rw [Store.earliestFree_eq, h.freeNodes, pick_map (h := P.restamp) fun _ => rfl, Option.map_map]
  rfl

end FreeNodes

section Place

variable {ρ : State} {u : UnitId} {rest : List UnitId} {f : Free}

theorem Problem.stampVertex_ne_unitVertex {σ : Nat} (hu : P.Valid u) :
    P.stampVertex σ ≠ P.unitVertex u := by
  have := P.unitVertex_lt_nodeBase hu
  unfold Problem.stampVertex
  split
  · simp only [Problem.unitVertex, Problem.unitBase]
    omega
  · omega

theorem nodesAfter_eq_nil {log : List Placement} (h : ∀ pl ∈ log, pl.id ≠ u) :
    nodesAfter P log u = [] := by
  simp only [nodesAfter, List.map_eq_nil_iff, List.filter_eq_nil_iff, List.mem_range]
  intro j hj
  simpa [List.getElem?_eq_getElem hj] using h _ (List.getElem_mem hj)

theorem nodesAfter_append {log : List Placement} (pl : Placement) (w : UnitId) :
    nodesAfter P (log ++ [pl]) w =
      nodesAfter P log w ++ if pl.id = w then [P.nodeBase + log.length] else [] := by
  simp only [nodesAfter, List.length_append, List.length_singleton, List.range_succ,
    List.filter_append, List.map_append]
  congr 1
  · congr 1
    exact List.filter_congr fun j hj => by rw [List.getElem?_append_left (List.mem_range.1 hj)]
  · by_cases hw : pl.id = w <;> simp [hw]

theorem Inv.log_valid {es : List Event} (h : Inv P ρ es) {pl : Placement} (hpl : pl ∈ ρ.log) :
    P.Valid pl.id := by
  have hwh := h.whereabouts_eq pl.id
  simp only [whereabouts, h.log_unit pl hpl, Option.isSome_some, if_true] at hwh
  refine Classical.byContradiction fun hc => ?_
  rw [if_neg fun h' => hc h'.1] at hwh
  omega

theorem Inv.length_log_lt {es : List Event} (h : Inv P ρ es) (hu : P.Valid u)
    (hnl : ∀ pl ∈ ρ.log, pl.id ≠ u) : ρ.log.length < P.totalUnits := by
  have hsub : u :: ρ.log.map Placement.id ⊆ P.units := by
    intro w hw
    rcases List.mem_cons.1 hw with rfl | hw
    · exact P.mem_units.2 hu
    · obtain ⟨pl, hpl, rfl⟩ := List.mem_map.1 hw
      exact P.mem_units.2 (h.log_valid hpl)
  have hnd : (u :: ρ.log.map Placement.id).Nodup := by
    refine List.nodup_cons.2 ⟨fun hm => ?_, h.log_nodup⟩
    obtain ⟨pl, hpl, he⟩ := List.mem_map.1 hm
    exact hnl pl hpl he
  have := (List.subperm_of_subset hnd hsub).length_le
  simp only [List.length_cons, List.length_map, Problem.length_units] at this
  omega

/-- The unit node before it is placed. -/
def unplacedNode (P : Problem) (ρ : State) (u : UnitId) : UnitNode :=
  ⟨u, P.execTime u, (ρ.unit u).timing, none⟩

/-- Placing the head of the queue on the picked moment changes the layout as `assign` changes the
state. -/
theorem layout_place (hI : Inv P ρ []) (hx : (P.execTime u).isNaN = false)
    (hq : ρ.queue = u :: rest) (hf : pick ρ.free = some f) {st : Store} {out : Array Nat}
    (hst : st.slots.toList = layout P ρ out) :
    (((((st.appendEdge (P.stampVertex f.stamp) (P.unitVertex u)).setNode (P.stampVertex f.stamp)
        (.processor ⟨f.processor, f.time, true⟩)).setNode (P.unitVertex u)
          (.unit (Run.placedUnit (unplacedNode P ρ u) ⟨f.processor, f.time, false⟩))).append
            (.processor ⟨f.processor,
              (Run.placedUnit (unplacedNode P ρ u) ⟨f.processor, f.time, false⟩).timing.finish,
                false⟩)).appendEdge (P.unitVertex u) st.size).slots.toList =
      layout P (assign P { ρ with queue := rest } u f) out := by
  obtain ⟨⟨hu, -⟩, -, hnp, hnl⟩ := hI.queue_head hq
  obtain ⟨hσ, hσn, hσm⟩ := P.mem_freeMoments.1 (hI.free_eq ▸ pick_mem hf)
  have htl := hI.taken_lt_length
  set ready := Double.maxNum (ρ.unit u).timing.ready f.time
  have hfin : P.execTime u + ready = ready + P.execTime u := Double.add_comm_of_isNaN (.inl hx)
  have hlog : (assign P { ρ with queue := rest } u f).log =
      ρ.log ++ [⟨u, f.processor, ready, ready + P.execTime u, f.stamp⟩] := rfl
  have hunit : (assign P { ρ with queue := rest } u f).unit =
      Function.update ρ.unit u ⟨⟨ready, ready + P.execTime u⟩, some f.processor⟩ := rfl
  have hsize : st.size = P.nodeBase + ρ.log.length := by
    rw [Store.size, ← Array.length_toList, hst, length_layout]
  have hlen : P.unitVertex u < (layout P ρ out).length := by
    rw [length_layout]
    have := P.unitVertex_lt_nodeBase hu
    omega
  have hfp : ((fun slot => { slot with node := .processor ⟨f.processor, f.time, true⟩ }) ∘
      (fun slot : Slot => { slot with out := slot.out.push (P.unitVertex u) }))
        (processorSlot P ρ f.stamp) = processorSlot P (assign P { ρ with queue := rest } u f) f.stamp := by
    simp [processorSlot, hlog, P.moment_append_of_lt hσ, hσm]
  have hproc : ∀ σ', σ' < P.processors + ρ.log.length → σ' ≠ f.stamp →
      processorSlot P (assign P { ρ with queue := rest } u f) σ' = processorSlot P ρ σ' := by
    intro σ' hσ' hne
    simp [processorSlot, hlog, P.moment_append_of_lt hσ', hne, Ne.symm hne]
  set placed := Run.placedUnit (unplacedNode P ρ u) ⟨f.processor, f.time, false⟩ with hplaced
  have hfu : ((fun slot : Slot => { slot with out := slot.out.push (P.nodeBase + ρ.log.length) }) ∘
      (fun slot => { slot with node := .unit placed }))
        (unitSlot P ρ u) = unitSlot P (assign P { ρ with queue := rest } u f) u := by
    simp [unitSlot, hunit, hlog, nodesAfter_append, nodesAfter_eq_nil hnl, hplaced, Run.placedUnit,
      unplacedNode, Timing.advance, hfin, ready]
  have hunits : ∀ w, w ≠ u →
      unitSlot P (assign P { ρ with queue := rest } u f) w = unitSlot P ρ w := by
    intro w hw
    simp [unitSlot, hunit, hlog, nodesAfter_append, Function.update_of_ne hw, Ne.symm hw]
  have hnew : ({ node := .processor ⟨f.processor, placed.timing.finish, false⟩ } : Slot) =
        processorSlot P (assign P { ρ with queue := rest } u f) (P.processors + ρ.log.length) := by
    have hnt : P.processors + ρ.log.length ∉ (ρ.log ++
        [(⟨u, f.processor, ready, ready + P.execTime u, f.stamp⟩ : Placement)]).map Placement.taken := by
      simp only [List.map_append, List.map_cons, List.map_nil, List.mem_append, List.mem_map,
        List.mem_singleton, not_or, not_exists, not_and]
      exact ⟨fun q hq he => by have := htl q hq; omega, by omega⟩
    have hft : (ρ.log ++ [(⟨u, f.processor, ready, ready + P.execTime u, f.stamp⟩ : Placement)]).filter
        (·.taken = P.processors + ρ.log.length) = [] := by
      refine List.filter_eq_nil_iff.2 fun q hq he => hnt ?_
      simp only [decide_eq_true_eq] at he
      exact he ▸ List.mem_map_of_mem hq
    simp only [processorSlot, hlog, hft, Problem.moment, Nat.add_sub_cancel_left,
      List.getElem?_concat_length, decide_eq_false hnt]
    simp [hplaced, Run.placedUnit, unplacedNode, Timing.advance, hfin, ready]
  rw [Store.toList_appendEdge, Store.toList_append, Store.toList_setNode, Store.toList_setNode,
    Store.toList_appendEdge, hst, List.modify_modify_eq,
    List.modify_append_of_lt (by rw [List.length_modify, List.length_modify]; exact hlen),
    List.modify_modify_eq, hsize,
    layout_assign hu hσ hlog rfl hfp hproc hfu hunits, hnew]

end Place

section Round

variable {s : Scheduler} {ρ : State} {u : UnitId} {rest : List UnitId} {f : Free}

/-- One round of list scheduling: the head of the queue goes to the node of the moment the direct
scheduler picks, and readiness spreads from the unit's end as the direct scheduler drains it. -/
theorem Renders.round (hg : P.graph.WellFormed) (hx : (P.execTime u).isNaN = false)
    (h : Renders P s ρ) (hI : Inv P ρ []) (hq : ρ.queue = u :: rest) (hf : pick ρ.free = some f)
    (fuel : Nat) :
    ∃ s', (Run.dispatchWith (fuel + 1)).run.run s = (Run.dispatchWith fuel).run.run s' ∧
      Renders P s' (Direct.drain P (Direct.assign P { ρ with queue := rest } u f)
        [.done u.task u.subtask]) ∧ s'.phase = s.phase := by
  obtain ⟨⟨hu, -⟩, -, hnp, hnl⟩ := hI.queue_head hq
  obtain ⟨hσ, hσn, hσm⟩ := P.mem_freeMoments.1 (hI.free_eq ▸ pick_mem hf)
  obtain ⟨e, rest', hqe, he, hrest⟩ := List.map_eq_cons_iff.1 (h.queue.held.trans (by rw [hq]; rfl))
  have hev : e.vertex = P.unitVertex u := congrArg Prod.fst he
  have hfree : s.store.earliestFree = some (P.stampVertex f.stamp) := by
    rw [h.earliestFree, ← hI.free_eq, hf]
    rfl
  have hslotp : processorSlot P ρ f.stamp = ⟨.processor ⟨f.processor, f.time, false⟩,
      ((ρ.log.filter (·.taken = f.stamp)).map fun pl => P.unitVertex pl.id).toArray⟩ := by
    simp [processorSlot, hσm, hσn]
  have hslotu : unitSlot P ρ u =
      ⟨.unit (unplacedNode P ρ u), #[P.exitVertex u.task]⟩ := by
    simp [unitSlot, unplacedNode, hnp, nodesAfter_eq_nil hnl]
  have hp0 := (h.stamp hσ).trans (congrArg some hslotp)
  have hu0 := (h.unit hu).trans (congrArg some hslotu)
  have hne := P.stampVertex_ne_unitVertex (σ := f.stamp) hu
  have hroom : s.store.size < s.store.limit := by
    have := hI.length_log_lt hu hnl
    have := h.room
    rw [h.size]
    omega
  have hedge : s.store.checkEdge .processor .unit (P.stampVertex f.stamp) (P.unitVertex u) =
      .ok () := Store.checkEdge_eq hp0 rfl hu0 rfl
  have hp2 : (s.store.appendEdge (P.stampVertex f.stamp) (P.unitVertex u)).slots[P.stampVertex f.stamp]? =
      some ⟨.processor ⟨f.processor, f.time, false⟩,
        (((ρ.log.filter (·.taken = f.stamp)).map fun pl => P.unitVertex pl.id).toArray).push
          (P.unitVertex u)⟩ := by
    rw [Store.getElem?_appendEdge, if_pos rfl, hp0]
    rfl
  have hu2 : (s.store.appendEdge (P.stampVertex f.stamp) (P.unitVertex u)).slots[P.unitVertex u]? =
      some ⟨.unit (unplacedNode P ρ u), #[P.exitVertex u.task]⟩ := by
    rw [Store.getElem?_appendEdge, if_neg hne, hu0]
  obtain ⟨st, hassign⟩ := run_assign (s := { s with
      queue := ⟨⟨rest'⟩, s.queue.nextSeq⟩
      store := s.store.appendEdge (P.stampVertex f.stamp) (P.unitVertex u)
      stats.edges := s.stats.edges + 1 }) hp2 rfl hu2 rfl hne (by simpa using hroom)
  -- the unit's edges: its end first, then the new node, which only records order
  have hstack : ((#[P.exitVertex u.task].push
      (s.store.appendEdge (P.stampVertex f.stamp) (P.unitVertex u)).size).toList.map
        (P.unitVertex u, ·)) =
      [Event.done u.task u.subtask].map P.edge ++ [(P.unitVertex u, P.nodeBase + ρ.log.length)] := by
    simp [Problem.edge, h.size]
  set ρ' := Direct.assign P { ρ with queue := rest } u f with hρ'
  have hlog' : ρ'.log = ρ.log ++ [⟨u, f.processor, Double.maxNum (ρ.unit u).timing.ready f.time,
      Double.maxNum (ρ.unit u).timing.ready f.time + P.execTime u, f.stamp⟩] := rfl
  have hR : Renders P { s with
      queue := ⟨⟨rest'⟩, s.queue.nextSeq⟩
      store := ((((s.store.appendEdge (P.stampVertex f.stamp) (P.unitVertex u)).setNode
        (P.stampVertex f.stamp) (.processor ⟨f.processor, f.time, true⟩)).setNode (P.unitVertex u)
          (.unit (Run.placedUnit (unplacedNode P ρ u) ⟨f.processor, f.time, false⟩))).append
            (.processor ⟨f.processor,
              (Run.placedUnit (unplacedNode P ρ u) ⟨f.processor, f.time, false⟩).timing.finish,
                false⟩)).appendEdge (P.unitVertex u)
                  (s.store.appendEdge (P.stampVertex f.stamp) (P.unitVertex u)).size
      stats := st } ρ' :=
    { toLandmarks := ⟨h.root, h.processors, h.barriers, h.priority⟩
      slots := by
        obtain ⟨out, hout⟩ := h.slots
        exact ⟨out, by rw [Store.size_appendEdge]; exact layout_place hI hx hq hf hout⟩
      queue := ⟨hrest, fun g hg => h.queue.stamped g (by rw [hqe]; exact List.mem_cons_of_mem _ hg)⟩
      edges := ((((h.edges.appendEdge _ _).setNode _ _).setNode _ _).append _).appendEdge _ _
      room := h.room }
  have htail : ∀ e ∈ [(P.unitVertex u, P.nodeBase + ρ.log.length)], OrderEdge P ρ' e := by
    intro e he
    rw [List.mem_singleton.1 he]
    exact ⟨u, ρ.log.length, hu, by rw [hlog', List.length_append]; simp, rfl⟩
  obtain ⟨s', hdrain, hR', hph⟩ := hR.drain hg (hI.assign hq hf) htail
  refine ⟨s', ?_, hR', hph⟩
  rw [run_dispatchWith_cons fuel hqe hfree, hev]
  refine (run_bind_congr (run_addEdge (s := { s with queue := ⟨⟨rest'⟩, s.queue.nextSeq⟩ }) hedge)).trans
    (run_bind_ok (run_guarded_ok (a := ()) ?_))
  show (Run.assign _ _).run.run _ = _
  rw [hassign, hstack]
  exact hdrain

/-- List scheduling renders the direct scheduler's assignments, given one more round than the
units still unplaced. -/
theorem Renders.dispatchWith (hg : P.graph.WellFormed)
    (hx : ∀ u, P.Valid u → (P.execTime u).isNaN = false) (hp : 0 < P.processors)
    (h : Renders P s ρ) (hI : Inv P ρ []) {fuel : Nat} (hfuel : P.totalUnits - ρ.log.length < fuel) :
    ∃ s', (Run.dispatchWith fuel).run.run s = (.ok (), s') ∧ Renders P s' (dispatch P ρ) ∧
      s'.phase = s.phase := by
  induction ρ using Direct.dispatch.induct P generalizing s fuel with
  | case1 ρ hq =>
    obtain ⟨fuel, rfl⟩ : ∃ f, fuel = f + 1 := ⟨fuel - 1, by omega⟩
    refine ⟨s, run_dispatchWith_nil fuel (List.map_eq_nil_iff.1 (by rw [h.queue.held, hq]; rfl)), ?_, rfl⟩
    rw [dispatch_of_queue_nil hq]
    exact h
  | case2 ρ u rest hq hf =>
    have := pick_isSome (hI.free_eq ▸ P.freeMoments_ne_nil hp ρ.log)
    rw [hf] at this
    cases this
  | case3 ρ u rest hq f hf ih =>
    obtain ⟨⟨hu, -⟩, -, -, hnl⟩ := hI.queue_head hq
    have hlt := hI.length_log_lt hu hnl
    obtain ⟨fuel, rfl⟩ : ∃ f, fuel = f + 1 := ⟨fuel - 1, by omega⟩
    obtain ⟨s₁, hrun, h₁, hph⟩ := h.round hg (hx u hu) hI hq hf fuel
    -- the round logged one placement, so one round fewer is needed
    have hlog : (Direct.drain P (Direct.assign P { ρ with queue := rest } u f)
        [.done u.task u.subtask]).log.length = ρ.log.length + 1 := by
      rw [log_drain]
      simp [Direct.assign]
    obtain ⟨s', hrun', h', hph'⟩ := ih h₁ ((hI.assign hq hf).drain hg)
      (show P.totalUnits - _ < fuel by rw [hlog]; omega)
    refine ⟨s', hrun.trans hrun', ?_, hph'.trans hph⟩
    rw [dispatch_of_pick_some hq hf]
    exact h'

end Round

section Unassigned

variable {s : Scheduler} {ρ : State}

/-- The units a rendering leaves unassigned are the units the state has not placed, in vertex
order. -/
theorem Renders.unassigned (h : Renders P s ρ) :
    s.store.unassigned = P.units.filter fun u => (ρ.unit u).processor.isNone := by
  obtain ⟨out, hout⟩ := h.slots
  unfold Store.unassigned
  rw [hout, layout, List.filterMap_cons_none rfl, List.filterMap_append, List.filterMap_append,
    List.filterMap_append,
    (List.filterMap_eq_nil_iff (l := (List.range P.processors).map (processorSlot P ρ))).2
      ?processors,
    (List.filterMap_eq_nil_iff (l := (List.range (2 * P.size)).map (barrierSlot P ρ))).2 ?barriers,
    (List.filterMap_eq_nil_iff
      (l := (List.range ρ.log.length).map fun j => processorSlot P ρ (P.processors + j))).2 ?nodes,
    List.nil_append,
    List.nil_append, List.append_nil, List.filterMap_map, ← List.map_id (List.filter _ P.units),
    ← List.filterMap_ite]
  case processors | nodes =>
    intro slot hs
    obtain ⟨σ, -, rfl⟩ := List.mem_map.1 hs
    rfl
  case barriers =>
    intro slot hs
    obtain ⟨i, -, rfl⟩ := List.mem_map.1 hs
    by_cases hi : i % 2 = 0 <;> simp [barrierSlot, hi, entrySlot, exitSlot]
  refine List.filterMap_congr fun u _ => ?_
  cases hp : (ρ.unit u).processor <;> simp [unitSlot, UnitNode.isScheduled, hp]

end Unassigned

section ListSchedule

variable {s : Scheduler} {ρ : State}

theorem Renders.listSchedule (hg : P.graph.WellFormed)
    (hx : ∀ u, P.Valid u → (P.execTime u).isNaN = false) (hp : 0 < P.processors)
    (h : Renders P s ρ) (hI : Inv P ρ []) (hph : s.phase = .started) :
    ∃ s', Renders P s' (dispatch P ρ) ∧ s'.phase = .started ∧
      (Run.listSchedule).run.run s =
        if s'.store.unassigned.isEmpty then (.ok (), { s' with phase := .done })
        else (.error (.unscheduled s'.store.unassigned), { s' with phase := .poisoned }) := by
  have hfuel : P.totalUnits - ρ.log.length < s.store.size + 1 := by
    rw [h.size]; simp only [Problem.nodeBase]; omega
  obtain ⟨s', hrun, h', hph'⟩ := h.dispatchWith hg hx hp hI hfuel
  exact ⟨s', h', hph'.trans hph, run_listSchedule hph hrun⟩

end ListSchedule

end Direct

end ListScheduling
