import ListScheduling.Proofs.Refinement.Relation
import ListScheduling.Proofs.Refinement.Stage
import ListScheduling.Scheduler.Build

/-!
The construction steps build the layout of the direct scheduler's initial state.
-/
namespace ListScheduling.Run

/-- One pass of the inner loop of `insertTasks`: unit `k` of task `t`, of time `x`, is checked,
then added between the barriers `bs` of its task. -/
def unitPass (bs : TaskBarriers) (t : Nat) (time : Double) (y : Double × Nat) (_ : PUnit) :
    Run (ForInStep PUnit) := do
  let (x, k) := y
  if !x.isValidTime then throw (.task (.invalidExecTime t k x))
  let unit ← addVertex (.unit (UnitNode.new ⟨t, k⟩ x time))
  addEdge .barrier .unit bs.entry unit
  addEdge .unit .barrier unit bs.exit
  pure (.yield ⟨⟩)

/-- One pass of the outer loop of `insertTasks`: the units of task `t` between its barriers
`bs`, or an edge from its begin to its end when it has none. -/
def taskPass (g : TaskGraph) (split : Split) (time : Double) (x : TaskBarriers × Nat)
    (_ : PUnit) : Run (ForInStep PUnit) := do
  let (bs, t) := x
  let times := g.unitTimes split t
  if times.isEmpty then
    addEdge .barrier .barrier bs.entry bs.exit
  else
    forIn times.zipIdx ⟨⟩ (unitPass bs t time)
  pure (.yield ⟨⟩)

theorem insertTasks_eq (g : TaskGraph) (split : Split) : insertTasks g split = (do
    enter .insertTasks .constraintsInserted
    finishStep .tasksInserted do
      let (_, time) ← rootVertex
      let barriers := (← get).barriers
      forIn barriers.toList.zipIdx ⟨⟩ (taskPass g split time)
      pure ()) := rfl

end ListScheduling.Run

namespace ListScheduling.Direct

open Run

variable {P : Problem}

/-- A run under construction: its store holds `slots`, with room for the whole graph, and its
landmarks are `procs` and `bars`. -/
structure Building (P : Problem) (s : Scheduler) (slots : List Slot) (procs : List Nat)
    (bars : List TaskBarriers) : Prop where
  slots : s.store.slots.toList = slots
  root : s.root = some 0
  processors : s.processors.toList = procs
  barriers : s.barriers.toList = bars
  queue : s.queue.entries = []
  priority : s.priority = P.priority
  edges : s.store.EdgeBound
  room : P.nodeBase + P.totalUnits ≤ s.store.limit

section Steps

variable {s : Scheduler} {slots : List Slot} {procs : List Nat} {bars : List TaskBarriers}

theorem Building.size (h : Building P s slots procs bars) : s.store.size = slots.length := by
  rw [Store.size, ← Array.length_toList, h.slots]

theorem Building.getElem? (h : Building P s slots procs bars) (i : Nat) :
    s.store.slots[i]? = slots[i]? := by
  rw [← Array.getElem?_toList, h.slots]

theorem Building.withPhase (h : Building P s slots procs bars) (ph : Phase) :
    Building P { s with phase := ph } slots procs bars :=
  ⟨h.slots, h.root, h.processors, h.barriers, h.queue, h.priority, h.edges, h.room⟩

theorem Building.pushProcessor (h : Building P s slots procs bars) (v : Nat) :
    Building P { s with processors := s.processors.push v } slots (procs ++ [v]) bars :=
  ⟨h.slots, h.root, by rw [Array.toList_push, h.processors], h.barriers, h.queue, h.priority,
    h.edges, h.room⟩

theorem Building.pushBarriers (h : Building P s slots procs bars) (bs : TaskBarriers) :
    Building P { s with barriers := s.barriers.push bs } slots procs (bars ++ [bs]) :=
  ⟨h.slots, h.root, h.processors, by rw [Array.toList_push, h.barriers], h.queue, h.priority,
    h.edges, h.room⟩

theorem Building.addVertex (h : Building P s slots procs bars) (n : Node) {k : Nat}
    (hk : slots.length = k) (hroom : k < P.nodeBase + P.totalUnits) :
    (Run.addVertex n).run.run s = (.ok k,
      { s with store := s.store.append n, stats := s.stats.noteVertex n.kind }) ∧
    Building P { s with store := s.store.append n, stats := s.stats.noteVertex n.kind }
      (slots ++ [{ node := n }]) procs bars := by
  refine ⟨by rw [run_addVertex n (by rw [h.size]; have := h.room; omega), h.size, hk], ?_⟩
  exact ⟨by rw [Store.toList_append, h.slots], h.root, h.processors, h.barriers, h.queue,
    h.priority, h.edges.append n, h.room⟩

theorem Building.addEdge_order (h : Building P s slots procs bars) {fk tk : NodeKind} {a b : Nat}
    {sa sb : Slot} (ha : slots[a]? = some sa) (hka : sa.node.kind = fk) (hb : slots[b]? = some sb)
    (hkb : sb.node.kind = tk) (hr : react fk tk a b = pure ()) :
    ∃ s', (addEdge fk tk a b).run.run s = (.ok (), s') ∧
      Building P s' (slots.modify a fun slot => { slot with out := slot.out.push b }) procs bars := by
  have hedge := Store.checkEdge_eq (h.getElem? a ▸ ha) hka (h.getElem? b ▸ hb) hkb
  refine ⟨{ s with store := s.store.appendEdge a b, stats.edges := s.stats.edges + 1 },
    (run_addEdge hedge).trans (by rw [hr]; exact run_guarded_ok rfl), ?_⟩
  exact ⟨by rw [Store.toList_appendEdge, h.slots], h.root, h.processors, h.barriers, h.queue,
    h.priority, h.edges.appendEdge a b, h.room⟩

theorem Building.addEdge_input (h : Building P s slots procs bars) {fk : NodeKind} {a b : Nat}
    {sa : Slot} {bar : BarrierNode} {out : Array Nat} (hab : a ≠ b) (ha : slots[a]? = some sa)
    (hka : sa.node.kind = fk) (hb : slots[b]? = some ⟨.barrier bar, out⟩)
    (hs : bar.satisfied = false) (hw : bar.waiting + 1 < BarrierNode.inputLimit)
    (hr : react fk .barrier a b = registerInput b) :
    ∃ s', (addEdge fk .barrier a b).run.run s = (.ok (), s') ∧
      Building P s' ((slots.modify a fun slot => { slot with out := slot.out.push b }).modify b
        ({ · with node := .barrier { bar with waiting := bar.waiting + 1 } })) procs bars := by
  have hedge : s.store.checkEdge fk .barrier a b = .ok () :=
    Store.checkEdge_eq (h.getElem? a ▸ ha) hka (h.getElem? b ▸ hb) rfl
  have hb' : (s.store.appendEdge a b).slots[b]? = some ⟨.barrier bar, out⟩ := by
    rw [Store.getElem?_appendEdge, if_neg hab, h.getElem? b, hb]
  have hadd : bar.addInput = { bar with waiting := bar.waiting + 1 } := by
    simp only [BarrierNode.addInput, Nat.mod_eq_of_lt hw]
  refine ⟨{ s with
      store := (s.store.appendEdge a b).setNode b (.barrier bar.addInput)
      stats.edges := s.stats.edges + 1 },
    (run_addEdge hedge).trans (by rw [hr]; exact run_guarded_ok (run_registerInput hb' hs)), ?_⟩
  exact ⟨by rw [Store.toList_setNode, Store.toList_appendEdge, h.slots, hadd], h.root,
    h.processors, h.barriers, h.queue, h.priority, (h.edges.appendEdge a b).setNode b _, h.room⟩

end Steps

section Stages

variable {s : Scheduler} {σ : Stage} {ro procs : List Nat} {bars : List TaskBarriers}

/-- The first node of processor `i`, linked from the root. -/
theorem Building.processor {i : Nat} (h : Building P s (σ.slots P ro (i + 1)) procs bars)
    (hi : i < P.processors) :
    ∃ s', (do
        let node ← Run.addVertex (.processor ⟨i, P.release, false⟩)
        addEdge .root .processor 0 node
        modify fun s : Scheduler => { s with processors := s.processors.push node }
        pure (ForInStep.yield ⟨⟩) : Run (ForInStep PUnit)).run.run s = (.ok (.yield ⟨⟩), s') ∧
      Building P s' (σ.slots P (ro ++ [i + 1]) (i + 2)) (procs ++ [i + 1]) bars := by
  have hlt : i + 1 < P.nodeBase + P.totalUnits := by
    simp only [Problem.nodeBase, Problem.unitBase]; omega
  obtain ⟨hadd, h₁⟩ := h.addVertex (.processor ⟨i, P.release, false⟩) (σ.length_slots ro _) hlt
  obtain ⟨s₂, (hedge : (addEdge .root .processor 0 (i + 1)).run.run _ = _), h₂⟩ :=
    h₁.addEdge_order (a := 0) (b := i + 1)
    (show _ = some (rootSlot P ro.toArray) by
      rw [List.getElem?_append_left (by simp [Stage.length_slots]), σ.getElem?_slots ro (by omega)]
      rfl) rfl
    (show _ = some { node := .processor ⟨i, P.release, false⟩ } by
      rw [List.getElem?_append_right (by simp [Stage.length_slots])]; simp [Stage.length_slots])
    rfl rfl
  refine ⟨_, by rw [run_bind_ok hadd, run_bind_ok hedge]; rfl, ?_⟩
  have hslots : ((σ.slots P ro (i + 1) ++
      ([{ node := .processor ⟨i, P.release, false⟩ }] : List Slot)).modify 0
      fun slot => { slot with out := slot.out.push (i + 1) }) = σ.slots P (ro ++ [i + 1]) (i + 2) := by
    rw [List.modify_append_of_lt (by simp [Stage.length_slots]), Stage.modify_root,
      Stage.slots_succ _ _ (i + 1), σ.slot_processor _ hi]
  exact (hslots ▸ h₂).pushProcessor (i + 1)

/-- The two barriers of task `j`, at the release time, awaiting nothing yet. -/
theorem Building.barrierPair {j : Nat}
    (h : Building P s ((Stage.recording P 0 0).slots P ro (P.processors + 1 + 2 * j)) procs bars)
    (hj : j < P.size) :
    ∃ s', (do
        let entry ← Run.addVertex (.barrier (BarrierNode.new P.release))
        let exit ← Run.addVertex (.barrier (BarrierNode.new P.release))
        modify fun s : Scheduler => { s with barriers := s.barriers.push ⟨entry, exit⟩ }
        pure (ForInStep.yield ⟨⟩) : Run (ForInStep PUnit)).run.run s = (.ok (.yield ⟨⟩), s') ∧
      Building P s' ((Stage.recording P 0 0).slots P ro (P.processors + 1 + 2 * (j + 1))) procs
        (bars ++ [⟨P.entryVertex j, P.exitVertex j⟩]) := by
  have hlt : P.processors + 1 + 2 * j + 1 < P.nodeBase + P.totalUnits := by
    simp only [Problem.nodeBase, Problem.unitBase]; omega
  obtain ⟨hadd₁, h₁⟩ := h.addVertex (.barrier (BarrierNode.new P.release)) (k := P.entryVertex j)
    (by rw [Stage.length_slots, Problem.entryVertex]) (by rw [Problem.entryVertex]; omega)
  obtain ⟨hadd₂, h₂⟩ := h₁.addVertex (.barrier (BarrierNode.new P.release)) (k := P.exitVertex j)
    (by simp [Stage.length_slots, Problem.exitVertex]; omega) (by rw [Problem.exitVertex]; omega)
  refine ⟨_, by rw [run_bind_ok hadd₁, run_bind_ok hadd₂]; rfl, ?_⟩
  have hbare : ∀ b < 2 * P.size, (Stage.recording P 0 0).slot P ro (P.processors + 1 + b) =
      { node := .barrier (BarrierNode.new P.release) } := by
    intro b hb
    rw [Stage.slot_barrier _ _ hb, Stage.barrier]
    split_ifs <;> simp [Stage.recording, Problem.depsUpTo, Problem.recorded, restingBarrier,
      BarrierNode.new]
  have hpair : (Stage.recording P 0 0).slots P ro (P.processors + 1 + 2 * j) ++
      ([{ node := .barrier (BarrierNode.new P.release) }] : List Slot) ++
      ([{ node := .barrier (BarrierNode.new P.release) }] : List Slot) =
      (Stage.recording P 0 0).slots P ro (P.processors + 1 + 2 * (j + 1)) := by
    rw [show P.processors + 1 + 2 * (j + 1) = P.processors + 1 + 2 * j + 1 + 1 by omega,
      Stage.slots_succ, Stage.slots_succ, hbare (2 * j) (by omega),
      show P.processors + 1 + 2 * j + 1 = P.processors + 1 + (2 * j + 1) by omega,
      hbare (2 * j + 1) (by omega)]
  exact hpair ▸ h₂.pushBarriers ⟨P.entryVertex j, P.exitVertex j⟩

theorem Building.link {t x len : Nat} (h : Building P s (σ.slots P ro len) procs bars)
    (ht : t < P.size) (hx : x < P.size) (hlen : P.unitBase ≤ len)
    (hw : σ.ins x + 1 < BarrierNode.inputLimit) :
    ∃ s', (addEdge .barrier .barrier (P.exitVertex t) (P.entryVertex x)).run.run s = (.ok (), s') ∧
      Building P s' (((σ.link t x).await x).slots P ro len) procs bars := by
  have hex : P.exitVertex t < len := by
    simp only [Problem.exitVertex, Problem.unitBase] at hlen ⊢; omega
  have hen : P.entryVertex x < len := by
    simp only [Problem.entryVertex, Problem.unitBase] at hlen ⊢; omega
  obtain ⟨s', (hedge : (addEdge .barrier .barrier (P.exitVertex t) (P.entryVertex x)).run.run _ = _),
      h'⟩ := h.addEdge_input (a := P.exitVertex t) (b := P.entryVertex x)
    (by simp only [Problem.exitVertex, Problem.entryVertex]; omega)
    (by rw [σ.getElem?_slots ro hex, σ.slot_exit ro ht]) rfl
    (show _ = some (⟨.barrier ⟨σ.ins x, .since P.release, false⟩, (σ.made x).toArray⟩ : Slot) by
      rw [σ.getElem?_slots ro hen, σ.slot_entry ro hx]; rfl) rfl hw rfl
  have hl : ((σ.slots P ro len).modify (P.exitVertex t)
      (fun slot => { slot with out := slot.out.push (P.entryVertex x) })).modify (P.entryVertex x)
        ({ · with node := .barrier ⟨(σ.link t x).ins x + 1, .since P.release, false⟩ }) =
      ((σ.link t x).await x).slots P ro len := by
    rw [Stage.modify_link ht, Stage.modify_await hx]
  exact ⟨s', hedge, hl ▸ h'⟩

/-- Unit `k` of task `t`, between the two barriers of its task. -/
theorem Building.unit {t k : Nat}
    (h : Building P s ((Stage.inserting P t k).slots P ro (P.unitVertex ⟨t, k⟩)) procs bars)
    (ht : t < P.size) (hk : k < P.unitCount t) (hw : k + 1 < BarrierNode.inputLimit) :
    ∃ s', (do
        let unit ← Run.addVertex (.unit (UnitNode.new ⟨t, k⟩ (P.execTime ⟨t, k⟩) P.release))
        addEdge .barrier .unit (P.entryVertex t) unit
        addEdge .unit .barrier unit (P.exitVertex t)
        pure (ForInStep.yield ⟨⟩) : Run (ForInStep PUnit)).run.run s = (.ok (.yield ⟨⟩), s') ∧
      Building P s' ((Stage.inserting P t (k + 1)).slots P ro (P.unitVertex ⟨t, k⟩ + 1))
        procs bars := by
  have hv : P.Valid ⟨t, k⟩ := ⟨ht, hk⟩
  have hvlt := P.unitVertex_lt_nodeBase hv
  have hent : P.entryVertex t < P.unitVertex ⟨t, k⟩ := by
    simp only [Problem.entryVertex, Problem.unitVertex, Problem.unitBase]; omega
  have hext : P.exitVertex t < P.unitVertex ⟨t, k⟩ := by
    simp only [Problem.exitVertex, Problem.unitVertex, Problem.unitBase]; omega
  let u₀ : Slot := { node := .unit (UnitNode.new ⟨t, k⟩ (P.execTime ⟨t, k⟩) P.release) }
  have hlen := Stage.length_slots (P := P) (Stage.inserting P t k) ro (P.unitVertex ⟨t, k⟩)
  obtain ⟨hadd, h₁⟩ := h.addVertex (.unit (UnitNode.new ⟨t, k⟩ (P.execTime ⟨t, k⟩) P.release))
    (k := P.unitVertex ⟨t, k⟩) hlen (by omega)
  have hunit : ∀ L : List Slot, L.length = P.unitVertex ⟨t, k⟩ →
      (L ++ [u₀])[P.unitVertex ⟨t, k⟩]? = some u₀ := by
    intro L hL
    rw [List.getElem?_append_right (by omega), hL, Nat.sub_self]
    rfl
  obtain ⟨s₂, (hedge₁ : (addEdge .barrier .unit (P.entryVertex t) (P.unitVertex ⟨t, k⟩)).run.run _ = _),
      h₂⟩ := h₁.addEdge_order (a := P.entryVertex t) (b := P.unitVertex ⟨t, k⟩)
    (by rw [List.getElem?_append_left (by omega), Stage.getElem?_slots _ _ hent,
      Stage.slot_entry _ _ ht]) rfl (hunit _ hlen) rfl rfl
  rw [List.modify_append_of_lt (by omega), Stage.modify_lead ht] at h₂
  have hlen₂ := Stage.length_slots (P := P) ((Stage.inserting P t k).lead t (P.unitVertex ⟨t, k⟩))
    ro (P.unitVertex ⟨t, k⟩)
  obtain ⟨s₃, (hedge₂ : (addEdge .unit .barrier (P.unitVertex ⟨t, k⟩) (P.exitVertex t)).run.run _ = _),
      h₃⟩ := h₂.addEdge_input (a := P.unitVertex ⟨t, k⟩) (b := P.exitVertex t) (by omega)
    (hunit _ hlen₂) rfl
    (show _ = some (⟨.barrier ⟨(Stage.inserting P t k).waits t, .since P.release, false⟩,
        (((Stage.inserting P t k).outs t).map P.entryVertex).toArray⟩ : Slot) by
      rw [List.getElem?_append_left (by omega), Stage.getElem?_slots _ _ hext,
        Stage.slot_exit _ _ ht]; rfl)
    rfl (by simpa [Stage.inserting] using hw) rfl
  refine ⟨s₃, by rw [run_bind_ok hadd, run_bind_ok hedge₁, run_bind_ok hedge₂]; rfl, ?_⟩
  have hl : ((((Stage.inserting P t k).lead t (P.unitVertex ⟨t, k⟩)).slots P ro
      (P.unitVertex ⟨t, k⟩) ++ [u₀]).modify (P.unitVertex ⟨t, k⟩)
        (fun slot => { slot with out := slot.out.push (P.exitVertex t) })).modify (P.exitVertex t)
      ({ · with node := .barrier ⟨((Stage.inserting P t k).lead t (P.unitVertex ⟨t, k⟩)).waits t + 1,
          .since P.release, false⟩ }) =
      (Stage.inserting P t (k + 1)).slots P ro (P.unitVertex ⟨t, k⟩ + 1) := by
    rw [List.modify_append_of_le (by omega), hlen₂, Nat.sub_self, List.modify_zero_cons,
      List.modify_append_of_lt (by omega), Stage.modify_expect ht, Stage.inserting_succ,
      Stage.slots_succ, Stage.slot_unit _ _ hv]
    rfl
  exact hl ▸ h₃

theorem Building.skip {t len : Nat} (h : Building P s ((Stage.inserting P t 0).slots P ro len) procs bars)
    (ht : t < P.size) (hc : P.unitCount t = 0) (hlen : P.unitBase ≤ len) :
    ∃ s', (addEdge .barrier .barrier (P.entryVertex t) (P.exitVertex t)).run.run s = (.ok (), s') ∧
      Building P s' ((Stage.inserting P (t + 1) 0).slots P ro len) procs bars := by
  have hex : P.exitVertex t < len := by
    simp only [Problem.exitVertex, Problem.unitBase] at hlen ⊢; omega
  have hen : P.entryVertex t < len := by
    simp only [Problem.entryVertex, Problem.unitBase] at hlen ⊢; omega
  obtain ⟨s', (hedge : (addEdge .barrier .barrier (P.entryVertex t) (P.exitVertex t)).run.run _ = _),
      h'⟩ := h.addEdge_input (a := P.entryVertex t) (b := P.exitVertex t)
    (by simp only [Problem.exitVertex, Problem.entryVertex]; omega)
    (by rw [Stage.getElem?_slots _ _ hen, Stage.slot_entry _ _ ht]) rfl
    (show _ = some (⟨.barrier ⟨(Stage.inserting P t 0).waits t, .since P.release, false⟩,
        (((Stage.inserting P t 0).outs t).map P.entryVertex).toArray⟩ : Slot) by
      rw [Stage.getElem?_slots _ _ hex, Stage.slot_exit _ _ ht]; rfl)
    rfl (by simp [Stage.inserting, BarrierNode.inputLimit]) rfl
  have hl : (((Stage.inserting P t 0).slots P ro len).modify (P.entryVertex t)
      (fun slot => { slot with out := slot.out.push (P.exitVertex t) })).modify (P.exitVertex t)
        ({ · with node := .barrier ⟨((Stage.inserting P t 0).lead t (P.exitVertex t)).waits t + 1,
          .since P.release, false⟩ }) =
      (Stage.inserting P (t + 1) 0).slots P ro len := by
    rw [Stage.modify_lead ht, Stage.modify_expect ht, Stage.inserting_skip hc]
  exact ⟨s', hedge, hl ▸ h'⟩

end Stages

section Run

theorem Building.insertRoot (hr : P.release.isFinite = true) {limit : Nat}
    (hroom : P.nodeBase + P.totalUnits ≤ (Store.withLimit limit).limit) (σ : Stage) :
    Returns (Run.insertRoot P.release) (Scheduler.new P.priority (Store.withLimit limit))
      (fun _ => False)
      fun _ s => Building P s (σ.slots P [] 1) [] [] ∧ s.phase = .rootInserted := by
  have hpos : (Store.withLimit limit).size < (Store.withLimit limit).limit := by
    simp only [Store.size, Store.withLimit, Array.size_empty, Problem.nodeBase,
      Problem.unitBase] at hroom ⊢
    omega
  unfold Run.insertRoot
  refine Returns.bind_ok (run_get _) ?_
  simp only [Scheduler.new, Option.isSome_none, Bool.false_and, Bool.false_eq_true, if_false]
  refine Returns.bind_ok (run_enter rfl (by decide)) ?_
  simp only [hr, Bool.not_true, Bool.false_eq_true, if_false]
  refine (Returns.finishStep (Q := fun _ s => Building P s (σ.slots P [] 1) [] []) ?_).mono
    (by rintro _ s ⟨s₀, h₀, rfl⟩; exact ⟨h₀.withPhase _, rfl⟩) (by rintro _ ⟨_, h, -⟩; exact h)
  refine Returns.bind_ok (run_addVertex _ hpos) ?_
  refine Returns.bind_ok (run_modify _ _) (Returns.pure ?_)
  exact ⟨rfl, rfl, rfl, rfl, rfl, rfl, Store.EdgeBound.append (fun _ h => by simp [Store.withLimit] at h) _, hroom⟩

/-- One first node per processor, each linked from the root. -/
theorem Building.createProcessors {s : Scheduler} {σ : Stage} (h : Building P s (σ.slots P [] 1) [] [])
    (hph : s.phase = .rootInserted) (hp : 0 < P.processors) :
    Returns (Run.createProcessors P.processors) s (fun _ => False) fun _ s' =>
      Building P s' (σ.slots P ((List.range P.processors).map (· + 1)) (P.processors + 1))
        ((List.range P.processors).map (· + 1)) [] ∧ s'.phase = .processorsCreated := by
  have hroot : s.store.slots[0]? = some ⟨.root P.release, #[]⟩ := by
    rw [h.getElem? 0]
    rfl
  unfold Run.createProcessors
  refine Returns.bind_ok (run_enter hph (by decide)) ?_
  simp only [Nat.pos_iff_ne_zero.1 hp, if_false]
  refine (Returns.finishStep (Q := fun _ s => Building P s
      (σ.slots P ((List.range P.processors).map (· + 1)) (P.processors + 1))
      ((List.range P.processors).map (· + 1)) []) ?_).mono
    (fun _ s ⟨s₀, h₀, hs⟩ => hs ▸ ⟨h₀.withPhase _, rfl⟩) fun _ ⟨_, h, _⟩ => h
  refine Returns.bind_ok (run_rootVertex h.root hroot) ?_
  dsimp only
  rw [Std.Legacy.Range.forIn_eq_forIn_range']
  have hrange : List.range' [:P.processors].start [:P.processors].size [:P.processors].step =
      List.range P.processors := by
    simp [Std.Legacy.Range.size, List.range_eq_range']
  rw [hrange]
  refine Returns.bind (Returns.forIn (fun i s => Building P s
      (σ.slots P ((List.range i).map (· + 1)) (i + 1)) ((List.range i).map (· + 1)) []) h
    fun i hi s hI => ?_) fun _ s' hI => Returns.pure (by simpa using hI)
  rw [List.getElem_range]
  obtain ⟨s', hrun, hB⟩ := hI.processor (by simpa using hi)
  refine Returns.of_ok hrun ⟨rfl, ?_⟩
  rw [List.range_succ, List.map_append, List.map_singleton]
  exact hB

theorem Problem.getElem_zipIdx_taskBarriers {t : Nat} (ht : t < P.taskBarriers.zipIdx.length) :
    P.taskBarriers.zipIdx[t] = (⟨P.entryVertex t, P.exitVertex t⟩, t) := by
  simp [List.getElem_zipIdx, Problem.taskBarriers]

theorem Problem.totalUnits_lt_inputLimit {limit : Nat}
    (hroom : P.nodeBase + P.totalUnits ≤ (Store.withLimit limit).limit) :
    P.totalUnits < BarrierNode.inputLimit := by
  simp only [Store.withLimit, maxVertices, BarrierNode.inputLimit, Nat.pow_eq] at hroom ⊢
  omega

theorem Building.barrier_at {s : Scheduler} {slots : List Slot} {procs : List Nat}
    (h : Building P s slots procs P.taskBarriers) {t : Nat} (ht : t < P.size) :
    s.barriers[t]? = some ⟨P.entryVertex t, P.exitVertex t⟩ := by
  rw [← Array.getElem?_toList, h.barriers, Problem.taskBarriers, List.getElem?_map,
    List.getElem?_range ht]
  rfl

/-- The barriers of every task, then one edge per dependency, from the end of a task to the
begin of its successor, in task order and recorded order. -/
theorem Building.insertConstraints {s : Scheduler} {ro : List Nat}
    (h : Building P s ((Stage.recording P 0 0).slots P ro (P.processors + 1)) ro [])
    (hroot : s.store.slots[0]? = some ⟨.root P.release, ro.toArray⟩)
    (hph : s.phase = .processorsCreated) (hg : P.graph.WellFormed)
    (hdeg : ∀ t < P.size, P.inDegree t < BarrierNode.inputLimit) :
    Returns (Run.insertConstraints P.graph) s (fun _ => False) fun _ s' =>
      Building P s' ((Stage.recording P P.size 0).slots P ro P.unitBase) ro P.taskBarriers ∧
        s'.phase = .constraintsInserted := by
  unfold Run.insertConstraints
  refine Returns.bind_ok (run_enter hph (by decide)) ?_
  refine (Returns.finishStep (Q := fun _ s => Building P s
      ((Stage.recording P P.size 0).slots P ro P.unitBase) ro P.taskBarriers) ?_).mono
    (fun _ s ⟨s₀, h₀, hs⟩ => hs ▸ ⟨h₀.withPhase _, rfl⟩) fun _ ⟨_, h, _⟩ => h
  refine Returns.bind_ok (run_rootVertex h.root hroot) ?_
  dsimp only
  refine Returns.bind (Returns.forIn (fun j s => Building P s
      ((Stage.recording P 0 0).slots P ro (P.processors + 1 + 2 * j)) ro
      ((List.range j).map fun t => ⟨P.entryVertex t, P.exitVertex t⟩)) h
    fun j hj s hI => ?_) fun _ s₁ h₁ => ?_
  · obtain ⟨s', hrun, hB⟩ := hI.barrierPair (by simpa [Problem.size] using hj)
    refine Returns.of_ok hrun ⟨rfl, ?_⟩
    rw [List.range_succ, List.map_append, List.map_singleton]
    exact hB
  have h₁' : Building P s₁ ((Stage.recording P 0 0).slots P ro P.unitBase) ro P.taskBarriers := by
    simpa [Problem.unitBase, Problem.taskBarriers, Problem.size] using h₁
  refine Returns.bind (Returns.forIn (fun t s => Building P s
      ((Stage.recording P t 0).slots P ro P.unitBase) ro P.taskBarriers) h₁'
    fun t ht s hI => ?_) fun _ s₂ h₂ => Returns.pure (by simpa [Problem.size] using h₂)
  rw [List.getElem_range]
  have ht' : t < P.size := by simpa [Problem.size] using ht
  refine Returns.bind_ok (run_get _) ?_
  simp only [hI.barrier_at ht', Option.map_some, Option.getD_some]
  refine Returns.bind (Returns.forIn (fun m s => Building P s
      ((Stage.recording P t m).slots P ro P.unitBase) ro P.taskBarriers) hI
    fun m hm s hJ => ?_) fun _ s' hJ => Returns.pure ⟨rfl, ?_⟩
  · have hx := hg t ht' _ (List.getElem_mem hm)
    have hw : (Stage.recording P t m).ins (P.graph.successors t)[m] + 1 <
        BarrierNode.inputLimit := by
      have h₁ : (Stage.recording P t (m + 1)).ins (P.graph.successors t)[m] =
          (Stage.recording P t m).ins (P.graph.successors t)[m] + 1 := by
        rw [Stage.recording_succ hm]
        simp [Stage.await, Stage.link]
      have h₂ := P.count_depsUpTo_le ht' (m + 1) (P.graph.successors t)[m]
      have h₃ := hdeg _ hx
      simp only [Stage.recording] at h₁ ⊢
      omega
    refine Returns.bind_ok (run_get _) ?_
    simp only [hJ.barrier_at hx]
    obtain ⟨s', hrun, hB⟩ := hJ.link ht' hx (le_refl _) hw
    refine Returns.bind_ok hrun (Returns.pure ⟨rfl, ?_⟩)
    rw [Stage.recording_succ hm]
    exact hB
  · rw [← Stage.recording_next]
    exact hJ

theorem Building.unitStep {s : Scheduler} {ro : List Nat} {t k : Nat}
    (hJ : Building P s ((Stage.inserting P t k).slots P ro (P.unitBase + P.offset t + k)) ro
      P.taskBarriers)
    (ht : t < P.size) (hk : k < (P.unitTimes t).zipIdx.length)
    (hv : (P.unitTimes t).zipIdx[k].1.isValidTime = true)
    (hunits : P.totalUnits < BarrierNode.inputLimit) :
    Returns (Run.unitPass ⟨P.entryVertex t, P.exitVertex t⟩ t P.release (P.unitTimes t).zipIdx[k] ⟨⟩)
      s (fun _ => False) fun r s' => r = .yield ⟨⟩ ∧ Building P s'
        ((Stage.inserting P t (k + 1)).slots P ro (P.unitBase + P.offset t + (k + 1))) ro
        P.taskBarriers := by
  have hk' : k < P.unitCount t := by simpa [Problem.unitCount] using hk
  have hxk : (P.unitTimes t).zipIdx[k] = (P.execTime ⟨t, k⟩, k) := by
    simp [List.getElem_zipIdx, Problem.execTime, List.getElem?_eq_getElem (by simpa using hk)]
  have hw : k + 1 < BarrierNode.inputLimit := by
    have := unitCount_le_totalUnits P ht
    omega
  rw [hxk] at hv ⊢
  simp only [Run.unitPass, hv, Bool.not_true, Bool.false_eq_true, if_false]
  obtain ⟨s', hrun, hB⟩ := hJ.unit ht hk' hw
  exact Returns.of_ok hrun ⟨rfl, hB⟩

/-- The pass of task `t`, whose unit times are valid: its units between its barriers, or an edge
from its begin to its end when it has none. -/
theorem Building.taskPass {s : Scheduler} {ro : List Nat} {split : Split} {t : Nat}
    (hI : Building P s ((Stage.inserting P t 0).slots P ro (P.unitBase + P.offset t)) ro
      P.taskBarriers)
    (ht : t < P.size) (hsplit : P.graph.unitTimes split = P.unitTimes)
    (hx : ∀ x ∈ P.unitTimes t, x.isValidTime = true)
    (hunits : P.totalUnits < BarrierNode.inputLimit) :
    Returns (Run.taskPass P.graph split P.release (⟨P.entryVertex t, P.exitVertex t⟩, t) ⟨⟩) s
      (fun _ => False) fun r s' => r = .yield ⟨⟩ ∧ Building P s'
        ((Stage.inserting P (t + 1) 0).slots P ro (P.unitBase + P.offset (t + 1))) ro
        P.taskBarriers := by
  unfold Run.taskPass
  simp only [hsplit]
  by_cases hc : P.unitCount t = 0
  · rw [if_pos (by simpa [Problem.unitCount] using hc)]
    obtain ⟨s', hrun, hB⟩ := hI.skip ht hc (by omega)
    refine Returns.bind_ok hrun (Returns.pure ⟨rfl, ?_⟩)
    rwa [P.offset_succ, hc, Nat.add_zero]
  rw [if_neg (by simpa [Problem.unitCount] using hc)]
  refine Returns.bind (Returns.forIn (fun k s => Building P s
      ((Stage.inserting P t k).slots P ro (P.unitBase + P.offset t + k)) ro P.taskBarriers) hI
    fun k hk s hJ => ?_) fun _ s' hJ => Returns.pure ⟨rfl, ?_⟩
  · exact hJ.unitStep ht hk (hx _ (List.fst_mem_of_mem_zipIdx (List.getElem_mem hk))) hunits
  · have hlen : (P.unitTimes t).zipIdx.length = P.unitCount t := by simp [Problem.unitCount]
    rw [hlen, Stage.inserting_next (by omega)] at hJ
    rwa [P.offset_succ, ← Nat.add_assoc]

/-- The units of every task between its barriers, task by task; a task without units links its
begin to its end. -/
theorem Building.insertTasks {s : Scheduler} {ro : List Nat} {split : Split}
    (h : Building P s ((Stage.inserting P 0 0).slots P ro P.unitBase) ro P.taskBarriers)
    (hroot : s.store.slots[0]? = some ⟨.root P.release, ro.toArray⟩)
    (hph : s.phase = .constraintsInserted) (hsplit : P.graph.unitTimes split = P.unitTimes)
    (hx : ∀ t < P.size, ∀ x ∈ P.unitTimes t, x.isValidTime = true)
    (hunits : P.totalUnits < BarrierNode.inputLimit) :
    Returns (Run.insertTasks P.graph split) s (fun _ => False) fun _ s' =>
      Building P s' ((Stage.inserting P P.size 0).slots P ro P.nodeBase) ro P.taskBarriers ∧
        s'.phase = .tasksInserted := by
  rw [Run.insertTasks_eq]
  refine Returns.bind_ok (run_enter hph (by decide)) ?_
  refine (Returns.finishStep (Q := fun _ s => Building P s
      ((Stage.inserting P P.size 0).slots P ro P.nodeBase) ro P.taskBarriers) ?_).mono
    (fun _ s ⟨s₀, h₀, hs⟩ => hs ▸ ⟨h₀.withPhase _, rfl⟩) fun _ ⟨_, h, _⟩ => h
  refine Returns.bind_ok (run_rootVertex h.root hroot) ?_
  dsimp only
  refine Returns.bind_ok (run_get _) ?_
  rw [h.barriers]
  refine Returns.bind (Returns.forIn (fun t s => Building P s
      ((Stage.inserting P t 0).slots P ro (P.unitBase + P.offset t)) ro P.taskBarriers)
      (by simpa [Problem.offset] using h) fun t ht s hI => ?_)
    fun _ s' h' => Returns.pure (by
      simpa [Problem.taskBarriers, Problem.offset_size, Problem.nodeBase] using h')
  have ht' : t < P.size := by simpa [Problem.taskBarriers] using ht
  rw [P.getElem_zipIdx_taskBarriers ht]
  exact hI.taskPass ht' hsplit (hx t ht') hunits

theorem Building.renders {s : Scheduler} {out : Array Nat}
    (h : Building P s (layout P (initial P) out) ((List.range P.processors).map (· + 1))
      P.taskBarriers) : Renders P s (initial P) where
  toLandmarks := ⟨h.root, h.processors, h.barriers, h.priority⟩
  slots := ⟨out, h.slots⟩
  queue := ⟨by rw [h.queue]; rfl, by simp [h.queue]⟩
  edges := h.edges
  room := h.room

theorem Building.root_slot {s : Scheduler} {σ : Stage} {ro procs : List Nat}
    {bars : List TaskBarriers} {len : Nat} (h : Building P s (σ.slots P ro len) procs bars)
    (hlen : 0 < len) : s.store.slots[0]? = some ⟨.root P.release, ro.toArray⟩ := by
  rw [h.getElem?, Stage.getElem?_slots _ _ hlen]
  rfl

theorem Building.constrained {split : Split} (hr : P.release.isFinite = true)
    (hp : 0 < P.processors) (hg : P.graph.WellFormed) {limit : Nat}
    (hroom : P.nodeBase + P.totalUnits ≤ (Store.withLimit limit).limit)
    (hdeg : ∀ t < P.size, P.inDegree t < BarrierNode.inputLimit) :
    ∃ s, (Run.build P.release P.processors P.graph split).run.run
        (Scheduler.new P.priority (Store.withLimit limit)) =
        (Run.insertTasks P.graph split).run.run s ∧
      Building P s ((Stage.inserting P 0 0).slots P ((List.range P.processors).map (· + 1))
        P.unitBase) ((List.range P.processors).map (· + 1)) P.taskBarriers ∧
      s.store.slots[0]? = some ⟨.root P.release, ((List.range P.processors).map (· + 1)).toArray⟩ ∧
      s.phase = .constraintsInserted := by
  unfold Run.build
  obtain ⟨_, s₁, hrun₁, h₁, hph₁⟩ :=
    (Building.insertRoot hr hroom (Stage.recording P 0 0)).ok fun _ h => h
  obtain ⟨_, s₂, hrun₂, h₂, hph₂⟩ := (h₁.createProcessors hph₁ hp).ok fun _ h => h
  obtain ⟨_, s₃, hrun₃, h₃, hph₃⟩ :=
    (h₂.insertConstraints (h₂.root_slot (by omega)) hph₂ hg hdeg).ok fun _ h => h
  rw [Stage.slots_recording_size] at h₃
  refine ⟨s₃, ?_, h₃, h₃.root_slot (by simp only [Problem.unitBase]; omega), hph₃⟩
  rw [run_bind_ok hrun₁, run_bind_ok hrun₂, run_bind_ok hrun₃]

theorem Building.build {split : Split} (hsplit : P.graph.unitTimes split = P.unitTimes)
    (hr : P.release.isFinite = true) (hp : 0 < P.processors) (hg : P.graph.WellFormed)
    (hx : ∀ t < P.size, ∀ x ∈ P.unitTimes t, x.isValidTime = true) {limit : Nat}
    (hroom : P.nodeBase + P.totalUnits ≤ (Store.withLimit limit).limit)
    (hdeg : ∀ t < P.size, P.inDegree t < BarrierNode.inputLimit) :
    Returns (Run.build P.release P.processors P.graph split)
      (Scheduler.new P.priority (Store.withLimit limit)) (fun _ => False)
      fun _ s => Building P s (layout P (initial P) ((List.range P.processors).map (· + 1)).toArray)
        ((List.range P.processors).map (· + 1)) P.taskBarriers ∧ s.phase = .tasksInserted := by
  have hunits := P.totalUnits_lt_inputLimit hroom
  obtain ⟨s₃, hrun, h₃, hroot₃, hph₃⟩ := @Building.constrained _ split hr hp hg _ hroom hdeg
  unfold Returns
  rw [hrun]
  refine (h₃.insertTasks hroot₃ hph₃ hsplit hx hunits).mono (fun _ s ⟨h₄, hph₄⟩ => ⟨?_, hph₄⟩)
    fun _ h => h
  rwa [Stage.slots_inserting_size, Stage.slots_complete] at h₄

theorem Renders.build {split : Split} (hsplit : P.graph.unitTimes split = P.unitTimes)
    (hr : P.release.isFinite = true) (hp : 0 < P.processors) (hg : P.graph.WellFormed)
    (hx : ∀ t < P.size, ∀ x ∈ P.unitTimes t, x.isValidTime = true) {limit : Nat}
    (hroom : P.nodeBase + P.totalUnits ≤ (Store.withLimit limit).limit)
    (hdeg : ∀ t < P.size, P.inDegree t < BarrierNode.inputLimit) :
    ∃ s, (Run.build P.release P.processors P.graph split).run.run
        (Scheduler.new P.priority (Store.withLimit limit)) =
      (.ok (), s) ∧ Renders P s (initial P) ∧ s.phase = .tasksInserted := by
  obtain ⟨⟨⟩, s, hrun, h, hph⟩ := (Building.build hsplit hr hp hg hx hroom hdeg).ok fun _ h => h
  exact ⟨s, hrun, h.renders, hph⟩

end Run

end ListScheduling.Direct
