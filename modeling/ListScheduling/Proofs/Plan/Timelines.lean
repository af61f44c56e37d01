import ListScheduling.Proofs.Plan.Finished
import ListScheduling.Proofs.Plan.Walk
import ListScheduling.Proofs.Refinement.Readout

/-!
The timelines of a finished run.
-/
namespace ListScheduling

/-- The assignment an entry of a plan reports. -/
def PlanEntry.assignment (e : PlanEntry) : Direct.Assignment :=
  ⟨e.id, e.processor, e.ready, e.finish⟩

/-- Where a plan finds the entry of each vertex: the index among `entries` of its entry. -/
def Plan.positions (entries : List PlanEntry) (size : Nat) : Array Nat :=
  entries.zipIdx.foldl (fun pos x => pos.set! x.1.vertex x.2) (Array.replicate size 0)

namespace Store

/-- The unit vertices of a store with their nodes, in vertex order. -/
def unitNodes (st : Store) : List (Nat × UnitNode) :=
  st.slots.toList.zipIdx.filterMap fun x =>
    match x.1.node with
    | .unit u => some (x.2, u)
    | _ => none

/-- The plan entry of vertex `v`, read from the unit there. -/
def entryAt (st : Store) (v : Nat) : PlanEntry :=
  match st.unitAt v with
  | .ok u => ⟨v, u.id, u.processor.getD 0, u.timing.ready, u.timing.finish, u.execTime⟩
  | .error _ => default

/-- The entries of the units of a store, in vertex order. -/
def planEntries (st : Store) : List PlanEntry :=
  st.unitNodes.map fun x => st.entryAt x.1

/-- The node that follows unit `u` on its processor: its last edge into a processor node. -/
def nextNode (st : Store) (u : Nat) : Nat :=
  (st.lastEdgeInto u .processor).getD 0

end Store

section Lists

variable {α β ε : Type}

theorem exists_bind_eq_ok {x : Except ε α} {k : α → Except ε β} {Q : β → Prop} {a : α}
    (hx : x = .ok a) (hk : ∃ c, k a = .ok c ∧ Q c) : ∃ c, (x >>= k) = .ok c ∧ Q c := by
  rw [hx]
  exact hk

theorem exists_bind_of_ok {x : Except ε α} {k : α → Except ε β} {Q : β → Prop}
    (hx : ∃ a, x = .ok a) (hk : ∀ a, ∃ c, k a = .ok c ∧ Q c) : ∃ c, (x >>= k) = .ok c ∧ Q c := by
  obtain ⟨a, ha⟩ := hx
  exact exists_bind_eq_ok ha (hk a)

theorem pairwise_filterMap_zipIdx {l : List α} {f : α × Nat → Option β} {g : β → Nat}
    (h : ∀ x b, f x = some b → g b = x.2) :
    ((l.zipIdx.filterMap f).map g).Pairwise (· < ·) := by
  have hidx : l.zipIdx.Pairwise fun x y => x.2 < y.2 := by
    have hr := List.pairwise_lt_range' (s := 0) (n := l.length)
    rw [← List.zipIdx_map_snd] at hr
    exact List.pairwise_map.1 hr
  rw [List.pairwise_map]
  exact hidx.filterMap f fun a a' haa' b hb b' hb' => by rw [h a b hb, h a' b' hb']; exact haa'

end Lists

/-! Where a plan finds each entry. -/

section Positions

variable {l : List (PlanEntry × Nat)} {a : Array Nat} {v : Nat}

theorem getElem?_foldl_set_of_not_mem (hv : ∀ x ∈ l, x.1.vertex ≠ v) :
    (l.foldl (fun pos x => pos.set! x.1.vertex x.2) a)[v]? = a[v]? := by
  induction l generalizing a with
  | nil => rfl
  | cons x l ih =>
    rw [List.foldl_cons, ih fun y hy => hv y (List.mem_cons_of_mem _ hy), Array.set!_eq_setIfInBounds,
      Array.getElem?_setIfInBounds_ne (hv x List.mem_cons_self)]

theorem getElem?_foldl_set (hnd : (l.map (·.1.vertex)).Nodup) {e : PlanEntry} {i : Nat}
    (hmem : (e, i) ∈ l) (hv : e.vertex < a.size) :
    (l.foldl (fun pos x => pos.set! x.1.vertex x.2) a)[e.vertex]? = some i := by
  induction l generalizing a with
  | nil => cases hmem
  | cons x l ih =>
    rw [List.map_cons, List.nodup_cons] at hnd
    rw [List.foldl_cons]
    rcases List.mem_cons.1 hmem with rfl | hmem
    · rw [getElem?_foldl_set_of_not_mem fun y hy hy' => hnd.1 (List.mem_map.2 ⟨y, hy, hy'⟩),
        Array.set!_eq_setIfInBounds, Array.getElem?_setIfInBounds_self, if_pos hv]
    · exact ih hnd.2 hmem (by rw [Array.set!_eq_setIfInBounds, Array.size_setIfInBounds]; exact hv)

theorem Plan.getElem?_positions {entries : List PlanEntry} {size : Nat}
    (hnd : (entries.map (·.vertex)).Nodup) (hlt : ∀ e ∈ entries, e.vertex < size) {i : Nat}
    (hi : i < entries.length) :
    (Plan.positions entries size)[entries[i].vertex]? = some i := by
  unfold Plan.positions
  refine getElem?_foldl_set ?_ (List.mem_zipIdx_iff_getElem?.2 ?_) ?_
  · have hmap : entries.zipIdx.map (fun x => x.1.vertex) = entries.map (·.vertex) := by
      conv_rhs => rw [← List.zipIdx_map_fst 0 entries]
      rw [List.map_map]
      rfl
    rw [hmap]
    exact hnd
  · simp [List.getElem?_eq_getElem hi]
  · simpa using hlt _ (List.getElem_mem hi)

end Positions

/-! The units of a store and their entries. -/

namespace Store

variable {st : Store} {v : Nat} {un : UnitNode}

theorem mem_unitNodes : (v, un) ∈ st.unitNodes ↔ st.unitAt v = .ok un := by
  unfold unitNodes
  rw [List.mem_filterMap]
  constructor
  · rintro ⟨⟨⟨n, out⟩, w⟩, hmem, hf⟩
    rw [List.mem_zipIdx_iff_getElem?, Array.getElem?_toList] at hmem
    cases n with
    | unit u =>
      cases hf
      exact unitAt_eq hmem
    | _ => cases hf
  · intro h
    obtain ⟨out, hs⟩ := slot_of_get (unitAt_eq_ok.1 h)
    exact ⟨(⟨.unit un, out⟩, v), by rw [List.mem_zipIdx_iff_getElem?, Array.getElem?_toList]; exact hs,
      rfl⟩

theorem unitNodes_pairwise : (st.unitNodes.map Prod.fst).Pairwise (· < ·) := by
  refine pairwise_filterMap_zipIdx fun x b hb => ?_
  obtain ⟨⟨n, out⟩, w⟩ := x
  cases n <;> cases hb
  rfl

theorem entryAt_eq (h : st.unitAt v = .ok un) :
    st.entryAt v = ⟨v, un.id, un.processor.getD 0, un.timing.ready, un.timing.finish, un.execTime⟩ := by
  simp only [entryAt, h]

theorem mem_planEntries {e : PlanEntry} :
    e ∈ st.planEntries ↔ ∃ v un, st.unitAt v = .ok un ∧ e = st.entryAt v := by
  simp only [planEntries, List.mem_map, Prod.exists]
  constructor
  · rintro ⟨v, un, hv, rfl⟩
    exact ⟨v, un, mem_unitNodes.1 hv, rfl⟩
  · rintro ⟨v, un, hv, rfl⟩
    exact ⟨v, un, mem_unitNodes.2 hv, rfl⟩

theorem vertex_entryAt (h : st.unitAt v = .ok un) : (st.entryAt v).vertex = v := by
  rw [entryAt_eq h]

theorem planEntries_vertex : st.planEntries.map (·.vertex) = st.unitNodes.map Prod.fst := by
  rw [planEntries, List.map_map]
  refine List.map_congr_left fun x hx => ?_
  obtain ⟨v, un⟩ := x
  exact vertex_entryAt (mem_unitNodes.1 hx)

theorem nodup_planEntries_vertex : (st.planEntries.map (·.vertex)).Nodup := by
  rw [planEntries_vertex]
  exact unitNodes_pairwise.nodup

theorem vertex_lt_of_mem_planEntries {e : PlanEntry} (he : e ∈ st.planEntries) :
    e.vertex < st.size := by
  obtain ⟨v, un, hu, rfl⟩ := mem_planEntries.1 he
  rw [vertex_entryAt hu]
  exact lt_size_of_get (unitAt_eq_ok.1 hu)

theorem getElem?_planEntries_positions (hu : st.unitAt v = .ok un) :
    st.planEntries[(Plan.positions st.planEntries st.size)[v]?.getD 0]? = some (st.entryAt v) := by
  obtain ⟨i, hi, hiv⟩ := List.mem_iff_getElem.1 (mem_unitNodes.2 hu)
  have hi' : i < st.planEntries.length := by simpa [planEntries] using hi
  have hpe : st.planEntries[i] = st.entryAt v := by simp [planEntries, hiv]
  have hpos := Plan.getElem?_positions nodup_planEntries_vertex
    (fun _ he => vertex_lt_of_mem_planEntries he) hi'
  rw [hpe, vertex_entryAt hu] at hpos
  rw [hpos, Option.getD_some, List.getElem?_eq_getElem hi', hpe]

theorem assignment_of_unitAt {slot : Slot} {k : Nat} (hu : st.unitAt v = .ok un)
    (hk : un.processor = some k) (hslot : st.slots[v]? = some slot) :
    slot.assignment = some (st.entryAt v).assignment := by
  obtain ⟨out, hs⟩ := slot_of_unitAt hu
  rw [hs] at hslot
  cases hslot
  simp [Slot.assignment, hk, entryAt_eq hu, PlanEntry.assignment]

theorem Chain.pairwise_nextNode {us : List Nat} (h : st.Chain v us) :
    (us.map st.nextNode).Pairwise (· < ·) ∧ ∀ y ∈ us.map st.nextNode, v < y := by
  induction h with
  | free => simp
  | @link v u w us hl hc ih =>
    have hw : st.nextNode u = w := by simp [nextNode, hl.next]
    rw [List.map_cons, hw, List.pairwise_cons]
    refine ⟨⟨ih.2, ih.1⟩, fun y hy => ?_⟩
    rcases List.mem_cons.1 hy with rfl | hy
    · exact hl.before
    · exact Nat.lt_trans hl.before (ih.2 y hy)

theorem Chain.entries_finish_le_ready {us : List Nat} (h : st.Chain v us) :
    (us.map st.entryAt).IsChain fun a b => a.finish.le b.ready = true := by
  rw [List.isChain_map]
  refine h.finish_le_ready.imp fun a b hab => ?_
  obtain ⟨ua, ub, ha, hb, hle⟩ := hab
  rw [entryAt_eq ha, entryAt_eq hb]
  exact hle

section Lanes

variable {F : Array Nat}

/-- A node that is not a first one records the assignment of the unit before it, the only
vertex with an edge to it. -/
theorem Lanes.placedBefore (hl : st.Lanes F) {u w : Nat} (hlink : st.Link v u w) (hw : w ∉ F) :
    st.placedBefore w = some (st.entryAt u).assignment := by
  obtain ⟨p, un, q, -, -, hun, hpu, -, hq, -⟩ := hlink.nodes
  obtain ⟨-, u', hl', huniq⟩ := hl.made w q hq hw
  have hwu : ∀ i, w ∈ st.outList i → i = u := fun i hi =>
    (huniq i hi).trans (huniq u (mem_outList_of_lastEdgeInto hlink.next)).symm
  obtain ⟨out, hslot⟩ := slot_of_unitAt hun
  unfold Store.placedBefore
  cases hfind : st.slots.toList.findSome?
      (fun slot => if w ∈ slot.out.toList then slot.assignment else none) with
  | none =>
    have hnone := List.findSome?_eq_none_iff.1 hfind _
      (Array.mem_toList_iff.2 (Array.mem_of_getElem? hslot))
    rw [if_pos (by simpa [outList_of_getElem? hslot] using
      mem_outList_of_lastEdgeInto hlink.next), assignment_of_unitAt hun hpu hslot] at hnone
    cases hnone
  | some a =>
    obtain ⟨slot, hmem, ha⟩ := List.exists_of_findSome?_eq_some hfind
    obtain ⟨i, hi⟩ := List.mem_iff_getElem?.1 hmem
    rw [Array.getElem?_toList] at hi
    split at ha
    · rename_i hwi
      obtain rfl := hwu i (by rw [outList_of_getElem? hi]; exact hwi)
      rw [assignment_of_unitAt hun hpu hi] at ha
      exact ha.symm
    · cases ha

/-- A unit on the chain of processor `k` leads to a node that is not a first one, by a link
from a node of the chain, and its entry is on processor `k`. -/
theorem Lanes.next_of_chain (hl : st.Lanes F) {k : Nat} (hk : k < F.size) {us : List Nat}
    (hF : st.Chain F[k] us) {u : Nat} (hu : u ∈ us) :
    ∃ x, st.Link x u (st.nextNode u) ∧ st.nextNode u ∉ F ∧ (st.entryAt u).processor = k := by
  obtain ⟨x, y, hx, hxy⟩ := hF.exists_link hu
  have hy : st.nextNode u = y := by simp [nextNode, hxy.next]
  obtain ⟨p, hp, hpk⟩ := hl.first k hk
  obtain ⟨un, hun, hunk⟩ := hF.placed hp u hu
  obtain ⟨px, un', q, -, -, hun', hpu', -, hq, hqp, -⟩ := hxy.nodes
  rw [hun] at hun'
  cases hun'
  rw [hy]
  refine ⟨x, hxy, fun hmem => ?_, by rw [entryAt_eq hun, hunk, hpk]; rfl⟩
  obtain ⟨j, hj, hjy⟩ := Array.mem_iff_getElem.1 hmem
  obtain ⟨p', hp', hp'j⟩ := hl.first j hj
  rw [hjy, hq] at hp'
  cases hp'
  have hjk : j = k := by
    rw [← hp'j, hqp, ← hpk]
    exact Option.some.inj (hpu'.symm.trans hunk)
  subst hjk
  have hxy' := hxy.before
  rw [← hjy] at hxy'
  exact absurd hx (Nat.not_le.2 hxy')

end Lanes

end Store

namespace Scheduler

variable {s : Scheduler}

theorem mem_madeNodes {w : Nat} :
    w ∈ s.madeNodes ↔ (∃ q, s.store.processorAt w = .ok q) ∧ w ∉ s.processors := by
  unfold Scheduler.madeNodes
  rw [List.mem_filterMap]
  constructor
  · rintro ⟨⟨⟨n, out⟩, v⟩, hmem, hf⟩
    rw [List.mem_zipIdx_iff_getElem?, Array.getElem?_toList] at hmem
    cases n with
    | processor q =>
      simp only at hf
      split at hf
      · cases hf
      · rename_i hv
        cases hf
        exact ⟨⟨q, Store.processorAt_eq hmem⟩, fun hw => hv (Array.mem_toList_iff.2 hw)⟩
    | _ => cases hf
  · rintro ⟨⟨q, hq⟩, hw⟩
    obtain ⟨out, hs⟩ := Store.slot_of_processorAt hq
    refine ⟨(⟨.processor q, out⟩, w), ?_, ?_⟩
    · rw [List.mem_zipIdx_iff_getElem?, Array.getElem?_toList]
      exact hs
    · simp [hw]

theorem madeNodes_pairwise : s.madeNodes.Pairwise (· < ·) := by
  rw [← List.map_id s.madeNodes]
  unfold Scheduler.madeNodes
  refine pairwise_filterMap_zipIdx fun x b hb => ?_
  obtain ⟨⟨n, out⟩, v⟩ := x
  cases n <;> simp at hb
  exact hb.2.symm

end Scheduler

namespace Scheduler.Finished

variable {r : Double} {count : Nat} {s : Scheduler}

theorem placed (h : s.Finished r count) {v : Nat} {un : UnitNode}
    (hu : s.store.unitAt v = .ok un) : ∃ k < s.processors.size, un.processor = some k := by
  have hsch : un.isScheduled = true := by
    obtain ⟨out, hs⟩ := Store.slot_of_get (Store.unitAt_eq_ok.1 hu)
    have hnone := List.filterMap_eq_nil_iff.1 h.assigned _
      (Array.mem_toList_iff.2 (Array.mem_of_getElem? hs))
    cases hsch : un.isScheduled
    · simp [hsch] at hnone
    · rfl
  obtain ⟨v', w, hl⟩ := h.charted.lanes.placed v un hu hsch
  obtain ⟨p, un', -, hp, -, hun', hpu, -⟩ := hl.nodes
  rw [hu] at hun'
  cases hun'
  exact ⟨p.processor, h.charted.lanes.index v' p hp, hpu⟩

/-- A finished run has a plan: its entries are those of the units in vertex order, and the
timeline of each processor is the walk along its chain, each unit read by its position. -/
theorem plan (h : s.Finished r count) :
    ∃ p : Plan, s.plan = .ok p ∧ p.entries.toList = s.store.planEntries ∧
      p.timelines.toList = s.processors.toList.map fun first =>
        ((s.store.walkFrom (s.store.size + 1) first).toOption.getD []).map
          fun v => (Plan.positions s.store.planEntries s.store.size)[v]?.getD 0 := by
  -- every walk starts at a processor node, so it reads processor nodes only
  have hwalk : ∀ first ∈ s.processors.toList,
      ∃ us, s.store.walkFrom (s.store.size + 1) first = .ok us := by
    intro first hfirst
    obtain ⟨k, hk, rfl⟩ := List.mem_iff_getElem.1 hfirst
    obtain ⟨p, hp, -⟩ := h.charted.lanes.first k (by simpa using hk)
    exact Store.walkFrom_ok _ ⟨p, by simpa using hp⟩
  unfold Scheduler.plan
  rw [h.done]
  refine exists_bind_eq_ok rfl ?_
  split
  all_goals refine exists_bind_of_ok ?_ fun _ => ?_
  · rename_i rt hroot
    obtain ⟨slot, hslot, -⟩ := h.charted.root rt hroot
    rw [Store.get_eq hslot]
    exact ⟨_, rfl⟩
  pick_goal 2
  · exact ⟨_, rfl⟩
  all_goals
    -- every unit is placed, so every entry reads
    refine exists_bind_eq_ok (mapM_eq_ok_of_forall (g := fun y : Nat × UnitNode =>
      s.store.entryAt y.1) fun y hy => ?_) ?_
    · obtain ⟨v, un⟩ := y
      have hu := Store.mem_unitNodes.1 hy
      obtain ⟨k, -, hk⟩ := h.placed hu
      simp only [hk, Store.entryAt_eq hu]
      rfl
    refine exists_bind_eq_ok (mapM_eq_ok_of_forall (g := fun first =>
      ((s.store.walkFrom (s.store.size + 1) first).toOption.getD []).map
        fun v => (Plan.positions s.store.planEntries s.store.size)[v]?.getD 0)
      fun first hfirst => ?_) ?_
    · obtain ⟨us, hus⟩ := hwalk first hfirst
      simp only [hus]
      rfl
    refine exists_bind_mapM_eq_ok (fun bs hbs => ?_) fun spans => ⟨_, rfl, rfl, by simp⟩
    obtain ⟨entry, hentry⟩ := (h.charted.barriers bs (Array.mem_toList_iff.1 hbs)).1.barrierAt
    obtain ⟨exit, hexit⟩ := (h.charted.barriers bs (Array.mem_toList_iff.1 hbs)).2.barrierAt
    simp only [hentry, hexit]
    exact ⟨_, rfl⟩

theorem exists_chain (h : s.Finished r count) {k : Nat} (hk : k < s.processors.size) :
    ∃ us, s.store.Chain s.processors[k] us := by
  obtain ⟨p, hp, -⟩ := h.charted.lanes.first k hk
  exact h.charted.lanes.exists_chain hp

theorem timeline (h : s.Finished r count) {p : Plan} (hp : s.plan = .ok p) {k : Nat}
    (hk : k < s.processors.size) {us : List Nat} (hus : s.store.Chain s.processors[k] us) :
    p.timeline k = us.map s.store.entryAt := by
  obtain ⟨p', hp', hentries, htimelines⟩ := h.plan
  rw [hp] at hp'
  cases hp'
  have hwalk : s.store.walkFrom (s.store.size + 1) s.processors[k] = .ok us :=
    hus.walkFrom (by omega)
  have htk : p.timelines[k]? =
      some (us.map fun v => (Plan.positions s.store.planEntries s.store.size)[v]?.getD 0) := by
    rw [← Array.getElem?_toList, htimelines, List.getElem?_map, Array.getElem?_toList,
      Array.getElem?_eq_getElem hk]
    simp [hwalk, Except.toOption]
  unfold Plan.timeline
  rw [htk, Option.getD_some, List.filterMap_map, ← List.filterMap_eq_map]
  refine List.filterMap_congr fun v hv => ?_
  obtain ⟨q, hq, -⟩ := h.charted.lanes.first k hk
  obtain ⟨un, hun, -⟩ := hus.placed hq v hv
  simp only [Function.comp_apply]
  rw [← Array.getElem?_toList, hentries]
  exact Store.getElem?_planEntries_positions hun

theorem mem_chain_entries (h : s.Finished r count) {k : Nat} (hk : k < s.processors.size)
    {us : List Nat} (hus : s.store.Chain s.processors[k] us) {e : PlanEntry} :
    e ∈ us.map s.store.entryAt ↔ e ∈ s.store.planEntries ∧ e.processor = k := by
  obtain ⟨q, hq, hqk⟩ := h.charted.lanes.first k hk
  constructor
  · intro he
    obtain ⟨v, hv, rfl⟩ := List.mem_map.1 he
    obtain ⟨un, hun, hunk⟩ := hus.placed hq v hv
    refine ⟨Store.mem_planEntries.2 ⟨v, un, hun, rfl⟩, ?_⟩
    rw [Store.entryAt_eq hun, hunk, hqk]
    rfl
  · rintro ⟨he, hek⟩
    obtain ⟨v, un, hun, rfl⟩ := Store.mem_planEntries.1 he
    obtain ⟨k', -, hk'⟩ := h.placed hun
    have hk'k : k' = k := by simpa [Store.entryAt_eq hun, hk'] using hek
    subst hk'k
    exact List.mem_map.2 ⟨v, h.charted.lanes.mem_chain hk hus hun hk', rfl⟩

theorem nodup_chain_entries (h : s.Finished r count) {k : Nat} (hk : k < s.processors.size)
    {us : List Nat} (hus : s.store.Chain s.processors[k] us) : (us.map s.store.entryAt).Nodup := by
  obtain ⟨q, hq, -⟩ := h.charted.lanes.first k hk
  refine hus.nodup.map_on fun x hx y hy hxy => ?_
  obtain ⟨ux, hux, -⟩ := hus.placed hq x hx
  obtain ⟨uy, huy, -⟩ := hus.placed hq y hy
  rw [← Store.vertex_entryAt hux, ← Store.vertex_entryAt huy, hxy]

/-- The placements on processor `k`, in the order they were made, are those of the units of its
chain: the nodes they made are the nodes the chain's units lead to, both in increasing order. -/
theorem assignments_filter (h : s.Finished r count) {k : Nat} (hk : k < s.processors.size)
    {us : List Nat} (hus : s.store.Chain s.processors[k] us) :
    s.assignments.filter (·.processor = k) = us.map fun u => (s.store.entryAt u).assignment := by
  have hl := h.charted.lanes
  let G : Nat → Option Direct.Assignment := fun w =>
    (s.store.placedBefore w).filter (·.processor = k)
  have hnext : ∀ u ∈ us, G (s.store.nextNode u) = some (s.store.entryAt u).assignment ∧
      s.store.nextNode u ∈ s.madeNodes := by
    intro u hu
    obtain ⟨x, hlink, hnot, hpk⟩ := hl.next_of_chain hk hus hu
    obtain ⟨-, -, q, -, -, -, -, -, hq, -⟩ := hlink.nodes
    refine ⟨?_, Scheduler.mem_madeNodes.2 ⟨⟨q, hq⟩, hnot⟩⟩
    simp [G, hl.placedBefore hlink hnot, PlanEntry.assignment, hpk]
  have hnodes : s.madeNodes.filter (fun w => (G w).isSome) = us.map s.store.nextNode := by
    refine List.Pairwise.eq_of_mem_iff (Scheduler.madeNodes_pairwise.filter _)
      hus.pairwise_nextNode.1 fun w => ?_
    rw [List.mem_filter, List.mem_map]
    constructor
    · rintro ⟨hw, hsome⟩
      obtain ⟨⟨q, hq⟩, hwF⟩ := Scheduler.mem_madeNodes.1 hw
      obtain ⟨v, u, hlink, -⟩ := hl.made w q hq hwF
      obtain ⟨p, un, -, -, -, hun, hpu, -⟩ := hlink.nodes
      -- the unit before the node is placed on `k`, so it is on the chain
      have hpk : p.processor = k := by
        simpa [G, hl.placedBefore hlink hwF, PlanEntry.assignment, Store.entryAt_eq hun, hpu]
          using hsome
      refine ⟨u, hl.mem_chain hk hus hun (hpu.trans (congrArg some hpk)), ?_⟩
      simp [Store.nextNode, hlink.next]
    · rintro ⟨u, hu, rfl⟩
      obtain ⟨hG, hmade⟩ := hnext u hu
      exact ⟨hmade, by rw [hG]; rfl⟩
  calc s.assignments.filter (·.processor = k)
      = s.madeNodes.filterMap G := by rw [Scheduler.assignments, List.filter_filterMap]
    _ = (s.madeNodes.filter fun w => (G w).isSome).filterMap G := by
        rw [List.filterMap_filter]
        refine List.filterMap_congr fun w _ => ?_
        cases G w <;> rfl
    _ = (us.map s.store.nextNode).filterMap G := by rw [hnodes]
    _ = us.map fun u => (s.store.entryAt u).assignment := by
        rw [List.filterMap_map, ← List.filterMap_eq_map]
        exact List.filterMap_congr fun u hu => (hnext u hu).1

/-- The timelines of all processors of a finished run together hold every entry once. -/
theorem perm_timelines (h : s.Finished r count) {p : Plan} (hp : s.plan = .ok p) :
    ((List.range count).flatMap p.timeline).Perm p.entries.toList := by
  obtain ⟨p', hp', hentries, -⟩ := h.plan
  rw [hp] at hp'
  cases hp'
  have htl : ∀ k < count, ((p.timeline k).Nodup ∧
      ∀ e, e ∈ p.timeline k ↔ e ∈ s.store.planEntries ∧ e.processor = k) := by
    intro k hk
    rw [← h.processors] at hk
    obtain ⟨us, hus⟩ := h.exists_chain hk
    rw [h.timeline hp hk hus]
    exact ⟨h.nodup_chain_entries hk hus, fun e => h.mem_chain_entries hk hus⟩
  rw [hentries]
  refine (List.perm_ext_iff_of_nodup ?_ (List.Nodup.of_map _ Store.nodup_planEntries_vertex)).2
    fun e => ?_
  · refine List.nodup_flatMap.2 ⟨fun k hk => (htl k (List.mem_range.1 hk)).1,
      List.nodup_range.pairwise_of_forall_ne fun a ha b hb hab e hea heb => hab ?_⟩
    exact (((htl a (List.mem_range.1 ha)).2 e).1 hea).2.symm.trans
      (((htl b (List.mem_range.1 hb)).2 e).1 heb).2
  rw [List.mem_flatMap]
  constructor
  · rintro ⟨k, hk, he⟩
    exact (((htl k (List.mem_range.1 hk)).2 e).1 he).1
  · intro he
    obtain ⟨v, un, hun, rfl⟩ := Store.mem_planEntries.1 he
    obtain ⟨k, hk, hunk⟩ := h.placed hun
    rw [h.processors] at hk
    refine ⟨k, List.mem_range.2 hk, ((htl k hk).2 _).2 ⟨he, ?_⟩⟩
    rw [Store.entryAt_eq hun, hunk]
    rfl

end Scheduler.Finished

/-- A whole run from a fresh scheduler that reaches the phase `done` has a plan. -/
theorem pipeline_timelines (time : Double) (count : Nat) (g : TaskGraph) (split : Split)
    (source : Option Nat) (priority : UnitId → Double) (limit : Nat) :
    let out := (Run.pipeline time count g split source).run.run
      (Scheduler.new priority (Store.withLimit limit))
    out.2.phase = .done → ∃ p, out.2.plan = .ok p ∧ out.2.processors.size = count ∧
      (∀ k < count,
        (∃ first us, out.2.processors[k]? = some first ∧ out.2.store.Chain first us ∧
          ∀ fuel, out.2.store.size < fuel → out.2.store.walkFrom fuel first = .ok us) ∧
        (∀ e, e ∈ p.timeline k ↔ e ∈ p.entries ∧ e.processor = k) ∧ (p.timeline k).Nodup ∧
        (p.timeline k).map PlanEntry.assignment = out.2.assignments.filter (·.processor = k) ∧
        (p.timeline k).IsChain (fun a b => a.finish.le b.ready = true) ∧
        p.busyTime k = Double.listSum ((p.timeline k).map (·.execTime))) ∧
      ((List.range count).flatMap p.timeline).Perm p.entries.toList := by
  intro out hdone
  have hrun : (Run.pipeline time count g split source).run.run
      (Scheduler.new priority (Store.withLimit limit)) = (out.1, out.2) := rfl
  have hok := Run.pipeline_ok_of_done hrun hdone
  have h : out.2.Finished time count := Run.finished_pipeline (by rw [hrun, hok])
  obtain ⟨p, hp, hentries, -⟩ := h.plan
  refine ⟨p, hp, h.processors, fun k hk => ?_, h.perm_timelines hp⟩
  rw [← h.processors] at hk
  obtain ⟨us, hus⟩ := h.exists_chain hk
  have htl := h.timeline hp hk hus
  refine ⟨⟨_, us, Array.getElem?_eq_getElem hk, hus, fun fuel hf => hus.walkFrom (by omega)⟩,
    fun e => ?_, htl ▸ h.nodup_chain_entries hk hus, ?_, htl ▸ hus.entries_finish_le_ready, rfl⟩
  · rw [htl, h.mem_chain_entries hk hus, Array.mem_def, hentries]
  · rw [htl, List.map_map]
    exact (h.assignments_filter hk hus).symm

/-- The diamond on two processors reaches `done`, and its two timelines hold its entries. -/
theorem pipeline_timelines_diamond :
    let out :=
      (Run.pipeline Direct.Problem.diamond.release 2 Direct.diamondGraph .subtasks none).run.run
        (Scheduler.new Direct.Problem.diamond.priority (Store.withLimit 100))
    out.2.phase = .done ∧ ∃ p, out.2.plan = .ok p ∧
      ((List.range 2).flatMap p.timeline).Perm p.entries.toList := by
  intro out
  have hdone : out.2.phase = .done := by decide +kernel
  obtain ⟨p, hp, -, -, hperm⟩ := pipeline_timelines Direct.Problem.diamond.release 2
    Direct.diamondGraph .subtasks none Direct.Problem.diamond.priority 100 hdone
  exact ⟨hdone, p, hp, hperm⟩

end ListScheduling
