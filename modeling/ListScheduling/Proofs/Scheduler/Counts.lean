import ListScheduling.Proofs.Scheduler.Onward
import ListScheduling.Proofs.Scheduler.Phases

/-!
The counts a run keeps.
-/
namespace List

variable {α : Type} {l : List α} {i : Nat} {x : α}

theorem sum_map_modify (h : l[i]? = some x) (f : α → α) (w : α → Nat) :
    ((l.modify i f).map w).sum + w x = (l.map w).sum + w (f x) := by
  obtain ⟨hi, rfl⟩ := List.getElem?_eq_some_iff.1 h
  obtain ⟨pre, a, post, hl, hpre, hm⟩ := List.exists_of_modify f hi
  have ha : l[i] = a := by simp [hl, ← hpre]
  rw [hm, ha, hl]
  simp only [List.map_append, List.map_cons, List.sum_append, List.sum_cons]
  omega

theorem mem_modify {f : α → α} {a : α} (h : a ∈ l.modify i f) : a ∈ l ∨ ∃ y ∈ l, a = f y := by
  by_cases hi : i < l.length
  · obtain ⟨pre, b, post, hl, -, hm⟩ := List.exists_of_modify f hi
    rw [hm] at h
    rw [hl]
    simp only [List.mem_append, List.mem_cons] at h ⊢
    rcases h with h | rfl | h
    · exact .inl (.inl h)
    · exact .inr ⟨b, .inr (.inl rfl), rfl⟩
    · exact .inl (.inr (.inr h))
  · rw [List.modify_eq_self (Nat.not_lt.1 hi)] at h
    exact .inl h

end List

namespace ListScheduling

namespace Slot

/-- Whether the slot holds a satisfied barrier. -/
def fired (slot : Slot) : Bool :=
  match slot.node with
  | .barrier b => b.satisfied
  | _ => false

/-- Whether the slot holds an assigned unit. -/
def scheduled (slot : Slot) : Bool :=
  match slot.node with
  | .unit u => u.isScheduled
  | _ => false

end Slot

namespace Node

/-- A vertex as the steps add it: a barrier not yet satisfied, a unit not yet assigned. -/
def Fresh : Node → Prop
  | .barrier b => b.satisfied = false
  | .unit u => u.isScheduled = false
  | _ => True

/-- A satisfied barrier awaits nothing. -/
def Settled : Node → Prop
  | .barrier b => b.satisfied = true → b.waiting = 0
  | _ => True

theorem Fresh.fired {n : Node} (h : n.Fresh) (out : Array Nat) : (⟨n, out⟩ : Slot).fired = false := by
  cases n <;> first | rfl | exact h

theorem Fresh.scheduled {n : Node} (h : n.Fresh) (out : Array Nat) :
    (⟨n, out⟩ : Slot).scheduled = false := by
  cases n <;> first | rfl | exact h

theorem Fresh.settled {n : Node} (h : n.Fresh) : n.Settled := by
  cases n with
  | barrier b => exact fun hs => absurd (h.symm.trans hs) Bool.false_ne_true
  | _ => trivial

end Node

@[simp] theorem Stats.noteVertex_vertices (st : Stats) (k : NodeKind) :
    (st.noteVertex k).vertices = st.vertices + 1 := by
  cases k <;> rfl

@[simp] theorem Stats.noteVertex_edges (st : Stats) (k : NodeKind) :
    (st.noteVertex k).edges = st.edges := by
  cases k <;> rfl

@[simp] theorem Stats.noteVertex_barriersFired (st : Stats) (k : NodeKind) :
    (st.noteVertex k).barriersFired = st.barriersFired := by
  cases k <;> rfl

@[simp] theorem Stats.noteVertex_assignments (st : Stats) (k : NodeKind) :
    (st.noteVertex k).assignments = st.assignments := by
  cases k <;> rfl

namespace Store

/-- A weight of the vertices of a store, added up. -/
def total (st : Store) (w : Slot → Nat) : Nat := (st.slots.toList.map w).sum

/-- The edges the vertices of a store hold. -/
def edgeTotal (st : Store) : Nat := st.total fun slot => slot.out.size

/-- The satisfied barriers of a store. -/
def firedCount (st : Store) : Nat := st.total fun slot => slot.fired.toNat

/-- The assigned units of a store. -/
def scheduledCount (st : Store) : Nat := st.total fun slot => slot.scheduled.toNat

/-- Every satisfied barrier of the store awaits nothing. -/
def Settled (st : Store) : Prop := ∀ slot ∈ st.slots.toList, slot.node.Settled

variable {st : Store} (w : Slot → Nat)

theorem total_append (n : Node) : (st.append n).total w = st.total w + w { node := n } := by
  simp [total, toList_append]

theorem total_setNode {i : Nat} {slot : Slot} (h : st.slots[i]? = some slot) (n : Node) :
    (st.setNode i n).total w + w slot = st.total w + w { slot with node := n } := by
  rw [total, total, toList_setNode]
  exact List.sum_map_modify (by rwa [Array.getElem?_toList]) _ w

theorem total_appendEdge {src : Nat} {slot : Slot} (h : st.slots[src]? = some slot) (dst : Nat) :
    (st.appendEdge src dst).total w + w slot =
      st.total w + w { slot with out := slot.out.push dst } := by
  rw [total, total, toList_appendEdge]
  exact List.sum_map_modify (by rwa [Array.getElem?_toList]) _ w

theorem edgeTotal_append (n : Node) : (st.append n).edgeTotal = st.edgeTotal := by
  simp [edgeTotal, total_append]

theorem edgeTotal_setNode {i : Nat} {slot : Slot} (h : st.slots[i]? = some slot) (n : Node) :
    (st.setNode i n).edgeTotal = st.edgeTotal := by
  have ht := total_setNode (fun slot => slot.out.size) h n
  simp only at ht
  simp only [edgeTotal]
  omega

theorem edgeTotal_appendEdge {src : Nat} {slot : Slot} (h : st.slots[src]? = some slot)
    (dst : Nat) : (st.appendEdge src dst).edgeTotal = st.edgeTotal + 1 := by
  have ht := total_appendEdge (fun slot => slot.out.size) h dst
  simp only [Array.size_push] at ht
  simp only [edgeTotal]
  omega

@[simp] theorem total_withLimit (limit : Nat) : (withLimit limit).total w = 0 := rfl

variable {w}

theorem Settled.at (h : st.Settled) {i : Nat} {slot : Slot} (hi : st.slots[i]? = some slot) :
    slot.node.Settled :=
  h slot (Array.mem_toList_iff.2 (Array.mem_of_getElem? hi))

theorem Settled.append (h : st.Settled) {n : Node} (hn : n.Settled) : (st.append n).Settled := by
  intro slot hslot
  rw [toList_append, List.mem_append, List.mem_singleton] at hslot
  rcases hslot with hslot | rfl
  · exact h slot hslot
  · exact hn

theorem Settled.setNode (h : st.Settled) (i : Nat) {n : Node} (hn : n.Settled) :
    (st.setNode i n).Settled := by
  intro slot hslot
  rw [toList_setNode] at hslot
  rcases List.mem_modify hslot with hslot | ⟨_, -, rfl⟩
  · exact h slot hslot
  · exact hn

theorem Settled.appendEdge (h : st.Settled) (src dst : Nat) : (st.appendEdge src dst).Settled := by
  intro slot hslot
  rw [toList_appendEdge] at hslot
  rcases List.mem_modify hslot with hslot | ⟨y, hy, rfl⟩
  · exact h slot hslot
  · exact h y hy

end Store

/-- The counts of vertices and edges agree with the store, and every edge counted leaves a
vertex of the store. -/
structure Scheduler.Counted (s : Scheduler) : Prop where
  vertices : s.stats.vertices = s.store.size
  edges : s.stats.edges = s.store.numEdges
  outs : s.store.numEdges = s.store.edgeTotal

/-- The counts a run keeps: those of vertices and edges always, and under `full` also those of
fired barriers and of assignments, with every satisfied barrier awaiting nothing. -/
structure Scheduler.Tally (full : Prop) (s : Scheduler) : Prop extends s.Counted where
  fired : full → s.stats.barriersFired = s.store.firedCount
  scheduled : full → s.stats.assignments = s.store.scheduledCount
  settled : full → s.store.Settled

namespace Scheduler.Tally

variable {full : Prop} {s s' : Scheduler}

theorem congr (h : s.Tally full) (hst : s'.store = s.store) (hs : s'.stats = s.stats) :
    s'.Tally full where
  vertices := by rw [hst, hs]; exact h.vertices
  edges := by rw [hst, hs]; exact h.edges
  outs := by rw [hst]; exact h.outs
  fired hf := by rw [hst, hs]; exact h.fired hf
  scheduled hf := by rw [hst, hs]; exact h.scheduled hf
  settled hf := by rw [hst]; exact h.settled hf

theorem append (h : s.Tally full) (n : Node) (hn : full → n.Fresh) :
    { s with store := s.store.append n, stats := s.stats.noteVertex n.kind }.Tally full where
  vertices := by simp [h.vertices]
  edges := by simp [h.edges]
  outs := by rw [Store.numEdges_append, Store.edgeTotal_append]; exact h.outs
  fired hf := by simp [Store.firedCount, Store.total_append, (hn hf).fired, h.fired hf]
  scheduled hf := by simp [Store.scheduledCount, Store.total_append, (hn hf).scheduled, h.scheduled hf]
  settled hf := (h.settled hf).append (hn hf).settled

theorem appendEdge (h : s.Tally full) {src : Nat} {slot : Slot} (hsrc : s.store.slots[src]? = some slot)
    (dst : Nat) :
    { s with store := s.store.appendEdge src dst, stats.edges := s.stats.edges + 1 }.Tally full where
  vertices := by simp [h.vertices]
  edges := by simp [h.edges]
  outs := by rw [Store.numEdges_appendEdge, Store.edgeTotal_appendEdge hsrc, h.outs]
  fired hf := by
    have ht := Store.total_appendEdge (fun slot => slot.fired.toNat) hsrc dst
    simp only [Store.firedCount, h.fired hf]
    simp only [Slot.fired] at ht ⊢
    omega
  scheduled hf := by
    have ht := Store.total_appendEdge (fun slot => slot.scheduled.toNat) hsrc dst
    simp only [Store.scheduledCount, h.scheduled hf]
    simp only [Slot.scheduled] at ht ⊢
    omega
  settled hf := (h.settled hf).appendEdge src dst

theorem rewrite (h : s.Tally full) {i : Nat} {slot : Slot} (hi : s.store.slots[i]? = some slot)
    {n : Node} {st : Stats} (hv : st.vertices = s.stats.vertices) (he : st.edges = s.stats.edges)
    (hf : full → st.barriersFired + slot.fired.toNat =
      s.stats.barriersFired + ({ slot with node := n } : Slot).fired.toNat)
    (hs : full → st.assignments + slot.scheduled.toNat =
      s.stats.assignments + ({ slot with node := n } : Slot).scheduled.toNat)
    (hn : full → n.Settled) : { s with store := s.store.setNode i n, stats := st }.Tally full where
  vertices := by simp [hv, h.vertices]
  edges := by simp [he, h.edges]
  outs := by rw [Store.numEdges_setNode, Store.edgeTotal_setNode hi]; exact h.outs
  fired hfull := by
    have ht := Store.total_setNode (fun slot => slot.fired.toNat) hi n
    have hc := hf hfull
    simp only [Store.firedCount, h.fired hfull] at hc ⊢
    omega
  scheduled hfull := by
    have ht := Store.total_setNode (fun slot => slot.scheduled.toNat) hi n
    have hc := hs hfull
    simp only [Store.scheduledCount, h.scheduled hfull] at hc ⊢
    omega
  settled hfull := (h.settled hfull).setNode i (hn hfull)

theorem setNode (h : s.Tally full) {i : Nat} {slot : Slot} (hi : s.store.slots[i]? = some slot)
    {n : Node} (hf : full → ({ slot with node := n } : Slot).fired = slot.fired)
    (hs : full → ({ slot with node := n } : Slot).scheduled = slot.scheduled)
    (hn : full → n.Settled) : { s with store := s.store.setNode i n }.Tally full :=
  h.rewrite hi rfl rfl (fun hfull => by rw [hf hfull, Nat.add_comm])
    (fun hfull => by rw [hs hfull, Nat.add_comm]) hn

theorem fire (h : s.Tally full) {i : Nat} {b b' : BarrierNode} {out : Array Nat}
    (hi : s.store.slots[i]? = some ⟨.barrier b, out⟩) (hb : full → b.satisfied = false)
    (hb' : b'.satisfied = true) (hw : b'.waiting = 0) :
    { s with
      store := s.store.setNode i (.barrier b')
      stats.barriersFired := s.stats.barriersFired + 1 }.Tally full :=
  h.rewrite hi rfl rfl (fun hfull => by simp [Slot.fired, hb hfull, hb'])
    (fun _ => by simp [Slot.scheduled]) fun _ _ => hw

theorem assign (h : s.Tally full) {i : Nat} {u u' : UnitNode} {out : Array Nat}
    (hi : s.store.slots[i]? = some ⟨.unit u, out⟩) (hu : u.isScheduled = false)
    (hu' : u'.isScheduled = true) :
    { s with
      store := s.store.setNode i (.unit u')
      stats.assignments := s.stats.assignments + 1 }.Tally full :=
  h.rewrite hi rfl rfl (fun _ => by simp [Slot.fired]) (fun _ => by simp [Slot.scheduled, hu, hu'])
    fun _ => trivial

end Scheduler.Tally

/-- The law of the counts: from a state whose counts agree with its store to another. -/
def Scheduler.tally (full : Prop) : Run.Law where
  inv := Scheduler.Tally full
  rel _ s' := s'.Tally full
  refl _ h := h
  trans _ h := h
  inv_of_rel h := h
  poison h := h.congr rfl rfl

namespace Run

variable {full : Prop} {α : Type}

/-- Every run of `x` from a state whose counts agree with its store ends in one whose counts
do, whatever its outcome. -/
def Tallies (full : Prop) (x : Run α) : Prop := Respects (Scheduler.tally full) x

theorem tallies_modify {g : Scheduler → Scheduler} (hst : ∀ s, (g s).store = s.store)
    (hs : ∀ s, (g s).stats = s.stats) : Tallies full (modify g) :=
  Respects.modify fun s h => Scheduler.Tally.congr h (hst s) (hs s)

theorem tallies_finishStep {next : Phase} {x : Run α} (hx : Tallies full x) :
    Tallies full (finishStep next x) :=
  Respects.finishStep hx fun h => Scheduler.Tally.congr h rfl rfl

theorem Tallies.modifyStore_bind_at {g : Store → Store} {f : Unit → Run α} {s : Scheduler}
    (h : ({ s with store := g s.store } : Scheduler).Tally full) (hf : Tallies full (f ())) :
    (Scheduler.tally full).rel s ((modifyStore g >>= f).run.run s).2 := by
  rw [run_modifyStore_bind]
  exact hf _ h

theorem Tallies.modifyStore_modifyStats_bind_at {g : Store → Store} {k : Stats → Stats}
    {f : Unit → Run α} {s : Scheduler}
    (h : ({ s with store := g s.store, stats := k s.stats } : Scheduler).Tally full)
    (hf : Tallies full (f ())) :
    (Scheduler.tally full).rel s ((modifyStore g >>= fun _ => modifyStats k >>= f).run.run s).2 := by
  rw [run_modifyStore_bind, run_modifyStats_bind]
  exact hf _ h

/-! The vertices and edges. -/

theorem tallies_addVertex {n : Node} (hn : full → n.Fresh) : Tallies full (addVertex n) := by
  intro s (h : s.Tally full)
  by_cases hroom : s.store.size < s.store.limit
  · rw [run_addVertex n hroom]
    exact h.append n hn
  · rw [run_addVertex_full n (Nat.not_lt.1 hroom)]
    exact h.congr rfl rfl

theorem tallies_recordEdge (fk tk : NodeKind) (src dst : Nat) :
    Tallies full (recordEdge fk tk src dst) := by
  intro s (h : s.Tally full)
  cases hc : s.store.checkEdge fk tk src dst with
  | error e =>
    rw [run_recordEdge_error hc]
    exact h
  | ok _ =>
    obtain ⟨⟨_, hsrc, -⟩, -⟩ := Store.slots_of_checkEdge hc
    rw [run_recordEdge hc]
    exact h.appendEdge hsrc dst

/-! The reactions to an edge. -/

theorem tallies_registerInput (b : Nat) : Tallies full (registerInput b) := by
  refine Respects.get_bind fun s (h : s.Tally full) => ?_
  cases hb : s.store.barrierAt b with
  | error e => exact h
  | ok bar =>
    simp only [run_liftStore_ok_bind]
    obtain ⟨out, hslot⟩ := Store.slot_of_barrierAt hb
    cases hs : bar.satisfied
    · exact h.setNode hslot (fun _ => rfl) (fun _ => rfl) fun _ hs' => absurd (hs.symm.trans hs')
        Bool.false_ne_true
    · exact h

theorem tallies_satisfyInput (a b : Nat) : Tallies full (satisfyInput a b) := by
  refine Respects.get_bind fun s (h : s.Tally full) => ?_
  dsimp only
  cases ha : s.store.get a with
  | error e => exact h
  | ok na =>
    cases hb : s.store.barrierAt b with
    | error e => exact h
    | ok bar =>
      simp only [run_liftStore_ok_bind]
      obtain ⟨out, hslot⟩ := Store.slot_of_barrierAt hb
      split
      · exact h
      · rename_i hw
        have hs : full → bar.satisfied = false := fun hf => by
          cases hsat : bar.satisfied
          · rfl
          · exact absurd ((h.settled hf).at hslot hsat) hw
        split
        · simp only [run_modifyStore_bind, run_pure]
          exact h.setNode hslot (fun _ => rfl) (fun _ => rfl) fun hf hsat => absurd
            ((hs hf).symm.trans hsat) Bool.false_ne_true
        · rename_i hpos
          refine Tallies.modifyStore_modifyStats_bind_at (h.fire hslot hs rfl ?_)
            (respects_outEdges _ _)
          simp only [BarrierNode.fire]
          omega

theorem tallies_releaseUnit (a b : Nat) : Tallies full (releaseUnit a b) := by
  refine Respects.get_bind fun s (h : s.Tally full) => ?_
  dsimp only
  cases ha : s.store.barrierAt a with
  | error e => exact h
  | ok bar =>
    cases hb : s.store.unitAt b with
    | error e => exact h
    | ok un =>
      simp only [run_liftStore_ok_bind]
      obtain ⟨out, hslot⟩ := Store.slot_of_unitAt hb
      exact Tallies.modifyStore_bind_at
        (h.setNode hslot (n := .unit { un with timing := un.timing.advance bar.timing.finish })
          (fun _ => rfl) (fun _ => rfl) fun _ => trivial)
        (tallies_modify (fun _ => by rfl) fun _ => by rfl)

theorem tallies_propagate (a b : Nat) : Tallies full (propagate a b) := by
  refine Respects.get.bind fun s => (Respects.liftStore _).bind fun ka =>
    (Respects.liftStore _).bind fun kb => ?_
  split
  · exact tallies_satisfyInput a b
  · exact tallies_satisfyInput a b
  · exact (tallies_releaseUnit a b).bind fun _ => Respects.pure _
  · exact Respects.pure _

theorem tallies_drainWith (fuel : Nat) (stack : List (Nat × Nat)) :
    Tallies full (drainWith fuel stack) := by
  induction fuel generalizing stack with
  | zero => exact Respects.pure _
  | succ fuel ih =>
    cases stack with
    | nil => exact Respects.pure _
    | cons e rest => exact (tallies_propagate e.1 e.2).bind fun next => ih _

theorem tallies_drain (stack : List (Nat × Nat)) : Tallies full (drain stack) :=
  Respects.get.bind fun _ => tallies_drainWith _ _

theorem tallies_releaseFromRoot (r b : Nat) : Tallies full (releaseFromRoot r b) := by
  refine Respects.get_bind fun s (h : s.Tally full) => ?_
  dsimp only
  cases hr : s.store.rootAt r with
  | error e => exact h
  | ok t =>
    cases hb : s.store.barrierAt b with
    | error e => exact h
    | ok bar =>
      simp only [run_liftStore_ok_bind]
      obtain ⟨out, hslot⟩ := Store.slot_of_barrierAt hb
      split
      · exact h
      · rename_i hs
        split
        · exact h
        · rename_i hw
          refine Tallies.modifyStore_modifyStats_bind_at
            (h.fire hslot (fun _ => by simpa using hs) rfl ?_)
            ((respects_outEdges _ _).bind tallies_drain)
          simp only [BarrierNode.fire]
          omega

theorem tallies_addOrderEdge (fk tk : NodeKind) (src dst : Nat) :
    Tallies full (addOrderEdge fk tk src dst) :=
  (tallies_recordEdge fk tk src dst).guarded

theorem tallies_assign (p u : Nat) : Tallies full (assign p u) := by
  refine Respects.get_bind fun s (h : s.Tally full) => ?_
  cases hp : s.store.processorAt p with
  | error e => exact h
  | ok node =>
    simp only [run_liftStore_ok_bind]
    split
    · exact h
    · obtain ⟨out, hslot⟩ := Store.slot_of_processorAt hp
      refine Tallies.modifyStore_bind_at
        (h.setNode hslot (n := .processor { node with occupied := true }) (fun _ => rfl)
          (fun _ => rfl) fun _ => trivial) (Respects.get_bind fun s₁ (h₁ : s₁.Tally full) => ?_)
      cases hu : s₁.store.unitAt u with
      | error e => exact h₁
      | ok un =>
        simp only [run_liftStore_ok_bind]
        split
        · exact h₁
        · rename_i hsched
          obtain ⟨out', hslot'⟩ := Store.slot_of_unitAt hu
          exact Tallies.modifyStore_modifyStats_bind_at
            (h₁.assign hslot' (by simpa using hsched) rfl)
            ((tallies_addVertex (n := .processor _) fun _ => trivial).bind fun _ =>
              (tallies_addOrderEdge _ _ _ _).bind fun _ =>
                (respects_outEdges _ _).bind tallies_drain)

theorem tallies_react (fk tk : NodeKind) (src dst : Nat) : Tallies full (react fk tk src dst) := by
  unfold react
  split
  · exact tallies_registerInput dst
  · exact tallies_registerInput dst
  · exact tallies_releaseFromRoot src dst
  · exact tallies_assign src dst
  · exact Respects.pure _

theorem tallies_addEdge (fk tk : NodeKind) (src dst : Nat) : Tallies full (addEdge fk tk src dst) :=
  ((tallies_recordEdge fk tk src dst).bind fun _ => tallies_react fk tk src dst).guarded

/-! The blocks of the steps. -/

theorem tallies_linkEntries (entries : List Nat) : Tallies full (linkEntries entries) := by
  refine respects_rootVertex.bind fun ⟨root, _⟩ => ?_
  exact (Respects.forIn fun _ _ => (tallies_addEdge _ _ _ _).bind fun _ => Respects.pure _).bind
    fun _ => Respects.pure _

theorem tallies_dispatchWith (fuel : Nat) : Tallies full (dispatchWith fuel) := by
  induction fuel with
  | zero => exact Respects.pure _
  | succ fuel ih =>
    refine Respects.get_bind fun s (h : s.Tally full) => ?_
    split
    · exact h
    · rename_i u queue _
      simp only [run_set_bind]
      have hq : ({ s with queue } : Scheduler).Tally full := h.congr rfl rfl
      split
      · exact ((Respects.liftStore _).bind fun _ => Respects.throw _ : Tallies full _) _ hq
      · exact ((tallies_addEdge _ _ _ _).bind fun _ => ih : Tallies full _) _ hq

/-! The steps; each adds fresh vertices only. -/

theorem tallies_insertRoot (t : Double) : Tallies full (insertRoot t) := by
  unfold insertRoot
  refine Respects.get.bind fun s => ?_
  dsimp only
  split
  · exact (tallies_modify (fun _ => by rfl) fun _ => by rfl).bind fun _ => Respects.throw_bind _ _
  · refine (Respects.enter _ _).bind fun _ => ?_
    split
    · exact Respects.throw_bind _ _
    · refine tallies_finishStep ((tallies_addVertex (n := .root t) fun _ => trivial).bind fun _ => ?_)
      exact (tallies_modify (fun _ => by rfl) fun _ => by rfl).bind fun _ => Respects.pure _

theorem tallies_createProcessors (count : Nat) : Tallies full (createProcessors count) := by
  unfold createProcessors
  refine (Respects.enter _ _).bind fun _ => ?_
  dsimp only
  split
  · exact Respects.throw_bind _ _
  · refine tallies_finishStep (respects_rootVertex.bind fun rt => ?_)
    obtain ⟨root, time⟩ := rt
    dsimp only
    rw [Std.Legacy.Range.forIn_eq_forIn_range']
    refine (Respects.forIn fun i _ => ?_).bind fun _ => Respects.pure _
    refine (tallies_addVertex (n := .processor ⟨i, time, false⟩) fun _ => trivial).bind
      fun node => ?_
    refine (tallies_addEdge _ _ _ _).bind fun _ => ?_
    exact (tallies_modify (fun _ => by rfl) fun _ => by rfl).bind fun _ => Respects.pure _

theorem tallies_insertConstraints (g : TaskGraph) : Tallies full (insertConstraints g) := by
  unfold insertConstraints
  refine (Respects.enter _ _).bind fun _ => tallies_finishStep ?_
  refine respects_rootVertex.bind fun ⟨_, time⟩ => ?_
  refine (Respects.forIn fun _ _ => ?_).bind fun _ =>
    (Respects.forIn fun _ _ => ?_).bind fun _ => Respects.pure _
  · refine (tallies_addVertex (n := .barrier (BarrierNode.new time)) fun _ => rfl).bind fun _ => ?_
    refine (tallies_addVertex (n := .barrier (BarrierNode.new time)) fun _ => rfl).bind fun _ => ?_
    exact (tallies_modify (fun _ => by rfl) fun _ => by rfl).bind fun _ => Respects.pure _
  · refine Respects.get.bind fun _ => (Respects.forIn fun _ _ => Respects.get.bind fun _ => ?_).bind
      fun _ => Respects.pure _
    split
    · exact (Respects.throw _).bind fun _ => Respects.pure _
    · exact (tallies_addEdge _ _ _ _).bind fun _ => Respects.pure _

theorem tallies_insertTasks (g : TaskGraph) (split : Split) : Tallies full (insertTasks g split) := by
  unfold insertTasks
  refine (Respects.enter _ _).bind fun _ => tallies_finishStep ?_
  refine respects_rootVertex.bind fun ⟨_, time⟩ => Respects.get.bind fun _ => ?_
  refine (Respects.forIn fun ⟨bs, t⟩ _ => ?_).bind fun _ => Respects.pure _
  dsimp only
  split
  · exact (tallies_addEdge _ _ _ _).bind fun _ => Respects.pure _
  · refine (Respects.forIn fun ⟨x, k⟩ _ => ?_).bind fun _ => Respects.pure _
    dsimp only
    split
    · exact Respects.throw_bind _ _
    · refine (tallies_addVertex (n := .unit (UnitNode.new ⟨t, k⟩ x time)) fun _ => rfl).bind
        fun _ => ?_
      exact (tallies_addEdge _ _ _ _).bind fun _ => (tallies_addEdge _ _ _ _).bind fun _ =>
        Respects.pure _

theorem tallies_start (task : Nat) : Tallies full (start task) := by
  unfold start
  refine (Respects.enter _ _).bind fun _ => Respects.get.bind fun _ => ?_
  split
  · exact Respects.throw _
  · exact tallies_finishStep (tallies_linkEntries _)

theorem tallies_startEntries : Tallies full startEntries := by
  unfold startEntries
  refine (Respects.enter _ _).bind fun _ => Respects.get.bind fun _ => ?_
  refine (Respects.filterMapM fun _ => (Respects.liftStore _).bind fun _ => Respects.pure _).bind
    fun _ => ?_
  exact tallies_finishStep (tallies_linkEntries _)

theorem tallies_listSchedule : Tallies full listSchedule := by
  unfold listSchedule
  refine (Respects.enter _ _).bind fun _ => tallies_finishStep ?_
  refine Respects.get.bind fun _ => (tallies_dispatchWith _).bind fun _ => Respects.get.bind fun _ => ?_
  dsimp only
  split
  · exact Respects.throw _
  · exact Respects.pure _

end Run

namespace Command

theorem tallies_run {full : Prop} (c : Command) : Run.Tallies full c.run := by
  cases c with
  | insertRoot t => exact (Run.tallies_insertRoot t).bind fun _ => Run.Respects.pure _
  | createProcessors count => exact Run.tallies_createProcessors count
  | insertConstraints g => exact Run.tallies_insertConstraints g
  | insertTasks g split => exact Run.tallies_insertTasks g split
  | start task => exact Run.tallies_start task
  | startEntries => exact Run.tallies_startEntries
  | listSchedule => exact Run.tallies_listSchedule

end Command

namespace Call

theorem tallies_run (c : Call) : Run.Tallies False c.run := by
  cases c with
  | command c => exact c.tallies_run
  | addVertex n => exact (Run.tallies_addVertex False.elim).bind fun _ => Run.Respects.pure _
  | addEdge fk tk src dst => exact Run.tallies_addEdge fk tk src dst

end Call

theorem Scheduler.Tally.new {full : Prop} (priority : UnitId → Double) (limit : Nat) :
    (Scheduler.new priority (Store.withLimit limit)).Tally full where
  vertices := rfl
  edges := rfl
  outs := rfl
  fired _ := rfl
  scheduled _ := rfl
  settled _ _ h := by simp [Scheduler.new, Store.withLimit] at h

theorem counted_runAll (priority : UnitId → Double) (limit : Nat) (calls : List Call) :
    (Call.runAll calls (Scheduler.new priority (Store.withLimit limit))).Counted := by
  -- the counts are an invariant of every call
  suffices h : ∀ s : Scheduler, s.Tally False → (Call.runAll calls s).Tally False from
    (h _ (.new priority limit)).toCounted
  induction calls with
  | nil => exact fun _ h => h
  | cons c calls ih => exact fun s h => ih _ (c.tallies_run s h)

end ListScheduling
