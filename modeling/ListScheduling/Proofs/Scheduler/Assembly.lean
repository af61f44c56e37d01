import ListScheduling.Proofs.Scheduler.Reactions
import ListScheduling.Proofs.Scheduler.Phases
import ListScheduling.Proofs.Refinement.Construction
import ListScheduling.Proofs.Task.Order

/-!
The construction of a run keeps its counts.
-/
namespace ListScheduling

namespace Store

/-- No barrier of the store has fired. -/
def Unfired (st : Store) : Prop :=
  ∀ (b : Nat) (bar : BarrierNode) (out : Array Nat), st.slots[b]? = some ⟨.barrier bar, out⟩ →
    bar.satisfied = false

/-- The vertex at `i` is a barrier that awaits `w` inputs. -/
def Waits (st : Store) (i w : Nat) : Prop :=
  ∃ bar out, st.slots[i]? = some ⟨.barrier bar, out⟩ ∧ bar.waiting = w

variable {st : Store} {i j w : Nat}

theorem HasKind.root (h : st.HasKind i .root) : ∃ t ro, st.slots[i]? = some ⟨.root t, ro⟩ := by
  obtain ⟨⟨n, ro⟩, hs, hk⟩ := h
  cases n <;> cases hk
  exact ⟨_, ro, hs⟩

theorem HasKind.barrier (h : st.HasKind i .barrier) :
    ∃ bar out, st.slots[i]? = some ⟨.barrier bar, out⟩ := by
  obtain ⟨⟨n, out⟩, hs, hk⟩ := h
  cases n <;> cases hk
  exact ⟨_, out, hs⟩

namespace Unfired

theorem append (h : st.Unfired) {n : Node} (hn : ∀ bar, n = .barrier bar → bar.satisfied = false) :
    (st.append n).Unfired := by
  intro b bar out hb
  rw [getElem?_append] at hb
  split at hb
  · cases hb
    exact hn bar rfl
  · exact h b bar out hb

theorem appendEdge (h : st.Unfired) (src dst : Nat) : (st.appendEdge src dst).Unfired := by
  intro b bar out hb
  obtain ⟨⟨n, o⟩, hs, hn⟩ := node_of_appendEdge hb
  dsimp only at hn
  subst hn
  exact h b bar o hs

theorem setNode (h : st.Unfired) {n : Node} (hn : ∀ bar, n = .barrier bar → bar.satisfied = false) :
    (st.setNode j n).Unfired := by
  intro b bar out hb
  rw [getElem?_setNode] at hb
  split at hb
  · obtain ⟨slot, -, hslot⟩ := Option.map_eq_some_iff.1 hb
    cases hslot
    exact hn bar rfl
  · exact h b bar out hb

end Unfired

namespace Waits

theorem append (h : st.Waits i w) (n : Node) : (st.append n).Waits i w := by
  obtain ⟨bar, out, hi, hw⟩ := h
  exact ⟨bar, out, by rw [getElem?_append, if_neg (Nat.ne_of_lt (HasKind.lt_size ⟨_, hi, rfl⟩)), hi],
    hw⟩

theorem input (h : st.Waits i w) {src dst : Nat} (hne : dst ≠ i) (n : Node) :
    ((st.appendEdge src dst).setNode dst n).Waits i w := by
  obtain ⟨bar, out, hi, hw⟩ := h
  obtain ⟨o, ho⟩ := node_appendEdge hi src dst
  exact ⟨bar, o, by rw [getElem?_setNode, if_neg hne, ho], hw⟩

theorem appendEdge (h : st.Waits i w) (src dst : Nat) : (st.appendEdge src dst).Waits i w := by
  obtain ⟨bar, out, hi, hw⟩ := h
  obtain ⟨o, ho⟩ := node_appendEdge hi src dst
  exact ⟨bar, o, ho, hw⟩

theorem hasKind (h : st.Waits i w) : st.HasKind i .barrier := by
  obtain ⟨bar, out, hi, -⟩ := h
  exact ⟨_, hi, rfl⟩

end Waits

/-- After the dependencies `done` are recorded over `n` tasks laid out from `base`: the entry of
each task awaits as many inputs as `done` names the task, and its exit awaits none. -/
def Linked (st : Store) (base n : Nat) (done : List Nat) : Prop :=
  ∀ u < n, st.Waits (base + 2 * u) (done.count u) ∧ st.Waits (base + 2 * u + 1) 0

theorem waits_append (b : BarrierNode) : (st.append (.barrier b)).Waits st.size b.waiting :=
  ⟨b, #[], by rw [getElem?_append, if_pos rfl], rfl⟩

theorem waits_input {dst : Nat} {bar : BarrierNode} {out : Array Nat}
    (h : st.slots[dst]? = some ⟨.barrier bar, out⟩) (hw : bar.waiting + 1 < BarrierNode.inputLimit)
    (src : Nat) :
    ((st.appendEdge src dst).setNode dst (.barrier bar.addInput)).Waits dst (bar.waiting + 1) := by
  obtain ⟨o, ho⟩ := node_appendEdge h src dst
  exact ⟨bar.addInput, o, getElem?_setNode_self ho _, Nat.mod_eq_of_lt hw⟩

end Store

/-- The barriers of task `t` when those of the first task are vertices `base` and `base + 1`. -/
def TaskBarriers.at (base t : Nat) : TaskBarriers := ⟨base + 2 * t, base + 2 * t + 1⟩

theorem BarrierNode.succ_lt_inputLimit {k : Nat} (h : k < maxVertices) :
    k + 1 < BarrierNode.inputLimit := by
  simp only [maxVertices, BarrierNode.inputLimit, Nat.pow_eq] at h ⊢
  omega

namespace Scheduler

/-- The barriers of the tasks are vertices in pairs from `base` on, in task order. -/
def LaidOut (s : Scheduler) (base : Nat) : Prop :=
  s.barriers.toList = (List.range s.barriers.size).map (TaskBarriers.at base)

/-- The vertices a run names are of their kinds: its root, the first node of each processor,
and the two barriers of each task. -/
structure Marked (s : Scheduler) : Prop where
  root : ∀ r, s.root = some r → s.store.HasKind r .root
  processors : ∀ p ∈ s.processors, s.store.HasKind p .processor
  barriers : ∀ bs ∈ s.barriers, s.store.HasKind bs.entry .barrier ∧ s.store.HasKind bs.exit .barrier

theorem LaidOut.getElem? {s : Scheduler} {base : Nat} (h : s.LaidOut base) {t : Nat}
    (ht : t < s.barriers.size) : s.barriers[t]? = some (TaskBarriers.at base t) := by
  rw [← Array.getElem?_toList, h, List.getElem?_map, List.getElem?_range ht]
  rfl

theorem LaidOut.of_barriers {s s' : Scheduler} {base : Nat} (h : s.LaidOut base)
    (hb : s'.barriers = s.barriers) : s'.LaidOut base := by
  unfold LaidOut
  rw [hb]
  exact h

theorem Marked.at {s : Scheduler} {base : Nat} (h : s.Marked) (hlay : s.LaidOut base) {t : Nat}
    (ht : t < s.barriers.size) :
    s.store.HasKind (base + 2 * t) .barrier ∧ s.store.HasKind (base + 2 * t + 1) .barrier :=
  h.barriers _ (Array.mem_of_getElem? (hlay.getElem? ht))

theorem Marked.run_rootVertex {s : Scheduler} (h : s.Marked) {r : Nat} (hr : s.root = some r) :
    ∃ t, Run.rootVertex.run.run s = (.ok (r, t), s) := by
  obtain ⟨t, ro, hro⟩ := (h.root r hr).root
  exact ⟨t, Run.run_rootVertex hr hro⟩

theorem Marked.of_alike {s s' : Scheduler} (h : s.Marked) (ha : s.Alike s') : s'.Marked where
  root r hr := ha.keeps.hasKind (h.root r (ha.root ▸ hr))
  processors p hp := ha.keeps.hasKind (h.processors p (ha.processors ▸ hp))
  barriers bs hbs := (h.barriers bs (ha.barriers ▸ hbs)).imp ha.keeps.hasKind ha.keeps.hasKind

/-- What the phase of a run tells the next step. -/
def Staged (s : Scheduler) : Phase → Prop
  | .empty => s.root = none ∧ s.processors = #[] ∧ s.barriers = #[] ∧ s.store.Unfired ∧
      s.store.limit ≤ maxVertices
  | .rootInserted => (∃ r, s.root = some r) ∧ s.processors = #[] ∧ s.barriers = #[] ∧
      s.store.Unfired ∧ s.store.limit ≤ maxVertices
  | .processorsCreated => (∃ r, s.root = some r) ∧ 0 < s.processors.size ∧ s.barriers = #[] ∧
      s.store.Unfired ∧ s.store.limit ≤ maxVertices
  | .constraintsInserted => (∃ r, s.root = some r) ∧ 0 < s.processors.size ∧
      (∃ base, s.LaidOut base ∧ ∀ u < s.barriers.size, s.store.Waits (TaskBarriers.at base u).exit 0) ∧
      s.store.Unfired ∧ s.store.limit ≤ maxVertices
  | .tasksInserted => (∃ r, s.root = some r) ∧ 0 < s.processors.size ∧ (∃ base, s.LaidOut base) ∧
      s.store.Unfired
  | .started => 0 < s.processors.size
  | .done | .poisoned => True

/-- What a run driven by the pipeline keeps outside the phase `poisoned`. -/
structure Steady (s : Scheduler) : Prop where
  balanced : s.Balanced []
  staffed : s.Staffed
  marked : s.Marked
  staged : s.Staged s.phase

/-- A run being built: balanced and staffed, its landmarks of their kinds, no barrier fired, and
the store's limit a vertex index. -/
structure Unstarted (s : Scheduler) : Prop where
  balanced : s.Balanced []
  staffed : s.Staffed
  marked : s.Marked
  unfired : s.store.Unfired
  capped : s.store.limit ≤ maxVertices

theorem Steady.moved {s : Scheduler} (h : s.Balanced []) (hst : s.Staffed) (hm : s.Marked)
    (ph : Phase) (hs : s.Staged ph) : { s with phase := ph }.Steady :=
  ⟨h.congr rfl rfl, hst, ⟨hm.1, hm.2, hm.3⟩, hs⟩

namespace Unstarted

variable {s : Scheduler}

theorem steady (h : s.Unstarted) (ph : Phase) (hs : s.Staged ph) : { s with phase := ph }.Steady :=
  Steady.moved h.balanced h.staffed h.marked ph hs

theorem append (h : s.Unstarted) {n : Node} (hn : n.kind ≠ .processor)
    (hb : ∀ bar, n = .barrier bar → bar.waiting = 0 ∧ bar.satisfied = false) (stats : Stats) :
    { s with store := s.store.append n, stats }.Unstarted where
  balanced := h.balanced.append (fun bar hbar => (hb bar hbar).1) rfl rfl
  staffed := h.staffed.of_freeCount (fun _ => Store.freeCount_append_of hn) rfl
  marked := h.marked.of_alike (.of_store (.append n) stats)
  unfired := h.unfired.append fun bar hbar => (hb bar hbar).2
  capped := h.capped

theorem appendEdge (h : s.Unstarted) {src dst : Nat} {ssrc : Slot}
    (hsrc : s.store.slots[src]? = some ssrc) (hdst : dst < s.store.size)
    (hidle : ssrc.isPending = true → ¬ s.store.HasKind dst .barrier ∧
      ∀ un out, s.store.slots[dst]? = some ⟨.unit un, out⟩ →
        s.store.inputs [] dst + s.queue.count dst + un.isScheduled.toNat = 0) (stats : Stats) :
    { s with store := s.store.appendEdge src dst, stats }.Unstarted where
  balanced := h.balanced.appendEdge hsrc hdst hidle rfl rfl
  staffed := h.staffed.of_freeCount (fun _ => Store.freeCount_appendEdge hsrc dst) rfl
  marked := h.marked.of_alike (.of_store (.appendEdge src dst) stats)
  unfired := h.unfired.appendEdge src dst
  capped := h.capped

theorem addInput (h : s.Unstarted) {src dst : Nat} {ssrc : Slot} {bar : BarrierNode}
    {out : Array Nat} (hsrc : s.store.slots[src]? = some ssrc) (hp : ssrc.isPending = true)
    (hdst : s.store.slots[dst]? = some ⟨.barrier bar, out⟩)
    (hw : bar.waiting + 1 < BarrierNode.inputLimit) (stats : Stats) :
    { s with
      store := (s.store.appendEdge src dst).setNode dst (.barrier bar.addInput)
      stats }.Unstarted := by
  obtain ⟨o, ho⟩ := Store.node_appendEdge hdst src dst
  have hsat := h.unfired dst bar out hdst
  refine ⟨h.balanced.addInput hsrc hp hdst hsat hw rfl rfl, h.staffed.of_freeCount (fun k => ?_) rfl,
    h.marked.of_alike (.of_store ((Store.Keeps.appendEdge src dst).trans
      (Store.keeps_setNode_of (n := .barrier bar.addInput) ho rfl)) stats),
    (h.unfired.appendEdge src dst).setNode fun b hb => ?_, h.capped⟩
  · rw [Store.freeCount_setNode_of (n := .barrier bar.addInput) ho (by simp [Node.kind])
      (by simp [Node.kind]), Store.freeCount_appendEdge hsrc]
  · cases hb
    exact hsat

/-- Processor `processors.size` gets its first node, free at `t` and linked from the root. -/
theorem addProcessor (h : s.Unstarted) {r : Nat} (hr : s.store.HasKind r .root) (t : Double)
    (stats : Stats) :
    { s with
      store := (s.store.append (.processor ⟨s.processors.size, t, false⟩)).appendEdge r s.store.size
      processors := s.processors.push s.store.size
      stats }.Unstarted := by
  obtain ⟨t₀, ro, hro⟩ := hr.root
  have hro' : (s.store.append (.processor ⟨s.processors.size, t, false⟩)).slots[r]? =
      some ⟨.root t₀, ro⟩ := by
    rw [Store.getElem?_append, if_neg (Nat.ne_of_lt (Store.HasKind.lt_size ⟨_, hro, rfl⟩)), hro]
  have hnew : (s.store.append (.processor ⟨s.processors.size, t, false⟩)).HasKind s.store.size
      .processor := ⟨_, by rw [Store.getElem?_append, if_pos rfl], rfl⟩
  have hk : s.store.Keeps ((s.store.append (.processor ⟨s.processors.size, t, false⟩)).appendEdge r
      s.store.size) := (Store.Keeps.append _).trans (.appendEdge _ _)
  have h₁ : ({ s with store := s.store.append (.processor ⟨s.processors.size, t, false⟩) } :
      Scheduler).Balanced [] := h.balanced.append (fun _ hb => by cases hb) rfl rfl
  refine ⟨h₁.appendEdge hro' hnew.lt_size (fun hp => by cases hp) rfl rfl,
    h.staffed.push (fun k => ?_) (by simp), ⟨fun r' hr' => hk.hasKind (h.marked.root r' hr'),
      fun p hp => ?_, fun bs hbs => (h.marked.barriers bs hbs).imp hk.hasKind hk.hasKind⟩,
    (h.unfired.append fun _ hb => by cases hb).appendEdge _ _, h.capped⟩
  · rw [Store.freeCount_appendEdge hro', Store.freeCount_append]
    by_cases hks : k = s.processors.size
    · simp [Slot.isFree, hks]
    · simp [Slot.isFree, Ne.symm hks, hks]
  · rcases Array.mem_push.1 hp with hp | rfl
    · exact hk.hasKind (h.marked.processors p hp)
    · exact (Store.Keeps.appendEdge _ _).hasKind hnew

theorem setRoot (h : s.Unstarted) {r : Nat} (hr : s.store.HasKind r .root) :
    { s with root := some r }.Unstarted where
  balanced := h.balanced.congr rfl rfl
  staffed := h.staffed
  marked := ⟨fun r' hr' => by cases hr'; exact hr, h.marked.2, h.marked.3⟩
  unfired := h.unfired
  capped := h.capped

theorem pushBarriers (h : s.Unstarted) {bs : TaskBarriers} (he : s.store.HasKind bs.entry .barrier)
    (hx : s.store.HasKind bs.exit .barrier) : { s with barriers := s.barriers.push bs }.Unstarted where
  balanced := h.balanced.congr rfl rfl
  staffed := h.staffed
  marked := ⟨h.marked.root, h.marked.processors, fun bs' hbs' => by
    rcases Array.mem_push.1 hbs' with hbs' | rfl
    · exact h.marked.barriers bs' hbs'
    · exact ⟨he, hx⟩⟩
  unfired := h.unfired
  capped := h.capped

end Unstarted

end Scheduler

theorem TaskGraph.sublist_inputs {g : TaskGraph} {t : Nat} (ht : t < g.size) (m : Nat) :
    ((List.range t).flatMap g.successors ++ (g.successors t).take m).Sublist g.inputs := by
  have hr : List.range g.size =
      List.range (t + 1) ++ (List.range (g.size - (t + 1))).map (t + 1 + ·) := by
    rw [← List.range_add]
    congr 1
    omega
  rw [TaskGraph.inputs, hr, List.flatMap_append, List.range_succ, List.flatMap_append,
    List.flatMap_singleton]
  exact ((List.take_sublist m _).append_left _).trans (List.sublist_append_left _ _)

namespace Run

open Scheduler

variable {s : Scheduler}

/-! The loops of the construction, each pass pinned as a definition. -/

/-- One pass of the loop of `createProcessors`: the first node of processor `i`, free at `time`
and linked from the root. -/
def processorPass (root : Nat) (time : Double) (i : Nat) (_ : PUnit) : Run (ForInStep PUnit) := do
  let node ← addVertex (.processor ⟨i, time, false⟩)
  addEdge .root .processor root node
  modify fun s => { s with processors := s.processors.push node }
  pure (.yield ⟨⟩)

theorem createProcessors_eq (count : Nat) : createProcessors count = (do
    enter .createProcessors .rootInserted
    if count = 0 then throw .noProcessors
    finishStep .processorsCreated do
      let (root, time) ← rootVertex
      forIn [0:count] ⟨⟩ (processorPass root time)
      pure ()) := rfl

/-- One pass of the first loop of `insertConstraints`: the entry and exit barriers of a task. -/
def barrierPass (time : Double) (_ : Nat) (_ : PUnit) : Run (ForInStep PUnit) := do
  let entry ← addVertex (.barrier (BarrierNode.new time))
  let exit ← addVertex (.barrier (BarrierNode.new time))
  modify fun s => { s with barriers := s.barriers.push ⟨entry, exit⟩ }
  pure (.yield ⟨⟩)

/-- One pass of the inner loop of the dependencies: an edge from the exit of a task to the entry
of its successor `succ`. -/
def linkPass (exit succ : Nat) (_ : PUnit) : Run (ForInStep PUnit) := do
  match (← get).barriers[succ]? with
  | none => throw (.task (.unknownTask succ))
  | some bs => addEdge .barrier .barrier exit bs.entry
  pure (.yield ⟨⟩)

/-- One pass of the outer loop of the dependencies: the edges out of task `t`. -/
def successorPass (g : TaskGraph) (t : Nat) (_ : PUnit) : Run (ForInStep PUnit) := do
  let exit := ((← get).barriers[t]?.map (·.exit)).getD 0
  forIn (g.successors t) ⟨⟩ (linkPass exit)
  pure (.yield ⟨⟩)

theorem insertConstraints_eq (g : TaskGraph) : insertConstraints g = (do
    enter .insertConstraints .processorsCreated
    finishStep .constraintsInserted do
      let (_, time) ← rootVertex
      forIn (List.range g.size) ⟨⟩ (barrierPass time)
      forIn (List.range g.size) ⟨⟩ (successorPass g)
      pure ()) := rfl

/-! The root and the processors. -/

theorem ends_insertRoot (h : s.Steady) (hph : s.phase = .empty) {time : Double}
    (ht : time.isFinite = true) :
    Ends (insertRoot time) s RunError.Expected fun _ s' => s'.Steady := by
  have hs := h.staged
  rw [hph] at hs
  obtain ⟨hr, hp, hb, hunf, hcap⟩ := hs
  have hu : s.Unstarted := ⟨h.balanced, h.staffed, h.marked, hunf, hcap⟩
  unfold insertRoot
  refine Ends.bind_ok (run_get s) ?_
  simp only [hr, Option.isSome_none, Bool.false_and, Bool.false_eq_true, if_false]
  refine Ends.bind_ok (run_enter hph (by decide)) ?_
  simp only [ht, Bool.not_true, Bool.false_eq_true, if_false]
  refine Ends.finishStep_of ?_
  refine Ends.bind (ends_addVertex _) ?_
  rintro r s₁ ⟨rfl, -, stats, rfl⟩
  have hu₁ := hu.append (n := .root time) (by simp [Node.kind]) (fun _ hb => by cases hb) stats
  refine Ends.bind_ok (run_modify _ _) (Ends.pure ?_)
  exact (hu₁.setRoot ⟨_, by rw [Store.getElem?_append, if_pos rfl], rfl⟩).steady .rootInserted
    ⟨⟨_, rfl⟩, hp, hb, hu₁.unfired, hu₁.capped⟩

theorem ends_processorPass (h : s.Unstarted) {r : Nat} (hr : s.store.HasKind r .root)
    (time : Double) :
    Ends (processorPass r time s.processors.size ⟨⟩) s RunError.Expected fun res s' =>
      res = .yield ⟨⟩ ∧ s'.Unstarted ∧ s'.root = s.root ∧
        s'.processors.size = s.processors.size + 1 ∧ s'.barriers = s.barriers := by
  unfold processorPass
  refine Ends.bind (ends_addVertex _) ?_
  rintro node s₁ ⟨rfl, -, stats, rfl⟩
  refine Ends.bind (ends_addEdge_inert ((Store.Keeps.append _).hasKind hr)
    ⟨_, by rw [Store.getElem?_append, if_pos rfl], rfl⟩ rfl) ?_
  rintro _ s₂ ⟨stats₂, rfl⟩
  exact Ends.bind_ok (run_modify _ _)
    (Ends.pure ⟨rfl, h.addProcessor hr time stats₂, rfl, by simp, rfl⟩)

theorem ends_createProcessors (h : s.Steady) (hph : s.phase = .rootInserted) {n : Nat} (hn : n ≠ 0) :
    Ends (createProcessors n) s RunError.Expected fun _ s' => s'.Steady := by
  have hs := h.staged
  rw [hph] at hs
  obtain ⟨⟨r, hr⟩, hp, hb, hunf, hcap⟩ := hs
  have hu : s.Unstarted := ⟨h.balanced, h.staffed, h.marked, hunf, hcap⟩
  obtain ⟨t, hrv⟩ := h.marked.run_rootVertex hr
  rw [createProcessors_eq]
  refine Ends.bind_ok (run_enter hph (by decide)) ?_
  simp only [hn, if_false]
  refine Ends.finishStep_of ?_
  refine Ends.bind_ok hrv ?_
  dsimp only
  rw [Std.Legacy.Range.forIn_eq_forIn_range']
  have hrange : List.range' [:n].start [:n].size [:n].step = List.range n := by
    simp [Std.Legacy.Range.size, List.range_eq_range']
  rw [hrange]
  refine Ends.bind (Ends.forIn (fun i s' => s'.Unstarted ∧ s'.root = some r ∧
      s'.processors.size = i ∧ s'.barriers = #[]) ⟨hu, hr, by simp [hp], hb⟩ ?_) ?_
  · intro i hi s' hI
    rw [List.getElem_range]
    obtain ⟨hu', hr', rfl, hb'⟩ := hI
    refine (ends_processorPass hu' (hu'.marked.root r hr') t).mono ?_ fun _ _ he => he
    rintro res s'' ⟨hres, hu'', hr'', hp'', hb''⟩
    exact ⟨hres, hu'', hr''.trans hr', hp'', hb''.trans hb'⟩
  · rintro _ s' ⟨hu', hr', hp', hb'⟩
    refine Ends.pure (hu'.steady .processorsCreated ⟨⟨r, hr'⟩, ?_, hb', hu'.unfired, hu'.capped⟩)
    rw [hp', List.length_range]
    exact Nat.pos_of_ne_zero hn

/-! The barriers and the dependencies. -/

/-- The barriers of one more task, awaiting nothing, at the end of the store. -/
theorem ends_barrierPass (h : s.Unstarted) (time : Double) (j : Nat) :
    Ends (barrierPass time j ⟨⟩) s RunError.Expected fun res s' =>
      res = .yield ⟨⟩ ∧ s'.Unstarted ∧ s'.root = s.root ∧ s'.processors = s.processors ∧
        s'.store.size = s.store.size + 2 ∧
        s'.barriers = s.barriers.push ⟨s.store.size, s.store.size + 1⟩ ∧
        (∀ i w, s.store.Waits i w → s'.store.Waits i w) ∧
        s'.store.Waits s.store.size 0 ∧ s'.store.Waits (s.store.size + 1) 0 := by
  unfold barrierPass
  refine Ends.bind (ends_addVertex _) ?_
  rintro e s₁ ⟨rfl, -, stats, rfl⟩
  refine Ends.bind (ends_addVertex _) ?_
  rintro x s₂ ⟨rfl, -, stats₂, rfl⟩
  have hfresh : ∀ bar, Node.barrier (BarrierNode.new time) = .barrier bar →
      bar.waiting = 0 ∧ bar.satisfied = false := by
    intro bar hb
    cases hb
    exact ⟨rfl, rfl⟩
  have hu₂ := (h.append (by simp [Node.kind]) hfresh stats).append (by simp [Node.kind]) hfresh stats₂
  have hw₁ : ((s.store.append (.barrier (BarrierNode.new time))).append
      (.barrier (BarrierNode.new time))).Waits s.store.size 0 :=
    (Store.waits_append _).append _
  have hw₂ := @Store.waits_append (s.store.append (.barrier (BarrierNode.new time)))
    (BarrierNode.new time)
  refine Ends.bind_ok (run_modify _ _) (Ends.pure ⟨rfl, hu₂.pushBarriers hw₁.hasKind hw₂.hasKind,
    rfl, rfl, by simp, by simp, fun i w hw => (hw.append _).append _, hw₁, ?_⟩)
  rw [Store.size_append] at hw₂
  exact hw₂

/-- The edge from the exit of task `t` to the entry of its successor `succ`: one more input of
the entry, which the graph keeps below the word's limit; a successor that is no task fails. -/
theorem ends_linkPass (h : s.Unstarted) {base n t succ : Nat} {done : List Nat}
    (hlay : s.LaidOut base) (hn : s.barriers.size = n) (ht : t < n) (hl : s.store.Linked base n done)
    (hroom : succ < n → done.count succ + 1 < BarrierNode.inputLimit) :
    Ends (linkPass (base + 2 * t + 1) succ ⟨⟩) s RunError.Expected fun res s' =>
      res = .yield ⟨⟩ ∧ s'.Unstarted ∧ s'.root = s.root ∧ s'.processors = s.processors ∧
        s'.barriers = s.barriers ∧ s'.store.Linked base n (done ++ [succ]) := by
  unfold linkPass
  refine Ends.bind_ok (run_get s) ?_
  rcases Nat.lt_or_ge succ n with hs | hs
  · simp only [hlay.getElem? (hn ▸ hs)]
    obtain ⟨bar, out, hslot, hw⟩ := (hl succ hs).1
    obtain ⟨xbar, xout, hx, -⟩ := (hl t ht).2
    have hw' : bar.waiting + 1 < BarrierNode.inputLimit := hw ▸ hroom hs
    refine Ends.bind (ends_addEdge_input ⟨_, hx, rfl⟩ hslot (h.unfired _ _ _ hslot) rfl) ?_
    rintro _ s' ⟨stats, rfl⟩
    refine Ends.pure ⟨rfl, h.addInput hx (by simp [Slot.isPending, h.unfired _ _ _ hx]) hslot hw' stats,
      rfl, rfl, rfl, fun u hu => ⟨?_, (hl u hu).2.input (by simp only [TaskBarriers.at]; omega) _⟩⟩
    by_cases hus : u = succ
    · subst hus
      rw [List.count_append, List.count_singleton_self, ← hw]
      exact Store.waits_input hslot hw' _
    · have hc : (done ++ [succ]).count u = done.count u := by simp [Ne.symm hus]
      rw [hc]
      exact (hl u hu).1.input (by simp only [TaskBarriers.at]; omega) _
  · have hbs : s.barriers[succ]? = none := Array.getElem?_eq_none (by omega)
    simp only [hbs]
    exact Ends.bind (Q := fun _ _ => False) (Ends.throw rfl) fun _ _ h => h.elim

/-- The edges out of task `t`, to each of its successors in order. -/
theorem ends_successorPass (h : s.Unstarted) {g : TaskGraph} {base t : Nat}
    (hlay : s.LaidOut base) (hn : s.barriers.size = g.size) (ht : t < g.size)
    (hl : s.store.Linked base g.size ((List.range t).flatMap g.successors))
    (hg : ∀ u < g.size, g.inputs.count u < BarrierNode.inputLimit) :
    Ends (successorPass g t ⟨⟩) s RunError.Expected fun res s' =>
      res = .yield ⟨⟩ ∧ s'.Unstarted ∧ s'.root = s.root ∧ s'.processors = s.processors ∧
        s'.barriers = s.barriers ∧
        s'.store.Linked base g.size ((List.range (t + 1)).flatMap g.successors) := by
  unfold successorPass
  refine Ends.bind_ok (run_get s) ?_
  simp only [hlay.getElem? (hn ▸ ht), Option.map_some, Option.getD_some, TaskBarriers.at]
  refine Ends.bind (Ends.forIn (fun m s' => s'.Unstarted ∧ s'.root = s.root ∧
      s'.processors = s.processors ∧ s'.barriers = s.barriers ∧
      s'.store.Linked base g.size ((List.range t).flatMap g.successors ++ (g.successors t).take m))
    ⟨h, rfl, rfl, rfl, by simpa using hl⟩ ?_) ?_
  · intro m hm s' hI
    obtain ⟨hu', hr', hp', hb', hl'⟩ := hI
    have htake : (g.successors t).take (m + 1) = (g.successors t).take m ++ [(g.successors t)[m]] := by
      rw [List.take_add_one, List.getElem?_eq_getElem hm, Option.toList_some]
    have hroom : (g.successors t)[m] < g.size → ((List.range t).flatMap g.successors ++
        (g.successors t).take m).count (g.successors t)[m] + 1 < BarrierNode.inputLimit := by
      intro hs
      have hsub := ((TaskGraph.sublist_inputs ht (m + 1)).count_le (g.successors t)[m])
      rw [htake, ← List.append_assoc, List.count_append, List.count_singleton_self] at hsub
      exact Nat.lt_of_le_of_lt hsub (hg _ hs)
    refine (ends_linkPass hu' (hlay.of_barriers hb') (hb' ▸ hn) ht hl' hroom).mono ?_ fun _ _ he => he
    rintro res s'' ⟨hres, hu'', hr'', hp'', hb'', hl''⟩
    refine ⟨hres, hu'', hr''.trans hr', hp''.trans hp', hb''.trans hb', ?_⟩
    rwa [htake, ← List.append_assoc]
  · rintro _ s' ⟨hu', hr', hp', hb', hl'⟩
    rw [List.take_length] at hl'
    refine Ends.pure ⟨rfl, hu', hr', hp', hb', ?_⟩
    rw [List.range_succ, List.flatMap_append, List.flatMap_singleton]
    exact hl'

theorem ends_insertConstraints (h : s.Steady) (hph : s.phase = .processorsCreated) (g : TaskGraph)
    (hg : ∀ u < g.size, g.inputs.count u < BarrierNode.inputLimit) :
    Ends (insertConstraints g) s RunError.Expected fun _ s' => s'.Steady := by
  have hs := h.staged
  rw [hph] at hs
  obtain ⟨⟨r, hr⟩, hp, hb, hunf, hcap⟩ := hs
  have hu : s.Unstarted := ⟨h.balanced, h.staffed, h.marked, hunf, hcap⟩
  obtain ⟨t₀, hrv⟩ := h.marked.run_rootVertex hr
  rw [insertConstraints_eq]
  refine Ends.bind_ok (run_enter hph (by decide)) ?_
  refine Ends.finishStep_of ?_
  refine Ends.bind_ok hrv ?_
  dsimp only
  refine Ends.bind (Ends.forIn (fun j s' => s'.Unstarted ∧ s'.root = s.root ∧
      s'.processors = s.processors ∧ s'.store.size = s.store.size + 2 * j ∧
      s'.barriers.toList = (List.range j).map (TaskBarriers.at s.store.size) ∧
      s'.store.Linked s.store.size j [])
    ⟨hu, rfl, rfl, rfl, by simp [hb], fun u hu => absurd hu (Nat.not_lt_zero u)⟩ ?_) ?_
  · intro j _ s' hI
    obtain ⟨hu', hr', hp', hsz, hbl, hl⟩ := hI
    refine (ends_barrierPass hu' t₀ _).mono ?_ fun _ _ he => he
    rintro res s'' ⟨hres, hu'', hr'', hp'', hsz', hb'', hw, he, hx⟩
    refine ⟨hres, hu'', hr''.trans hr', hp''.trans hp', by omega, ?_, fun u hu => ?_⟩
    · rw [hb'', Array.toList_push, hbl, List.range_succ, List.map_append, List.map_singleton, hsz]
      rfl
    · rcases Nat.lt_succ_iff_lt_or_eq.1 hu with hu | rfl
      · exact ⟨hw _ _ (hl u hu).1, hw _ _ (hl u hu).2⟩
      · rw [hsz] at he hx
        exact ⟨he, hx⟩
  rintro _ s₁ ⟨hu₁, hr₁, hp₁, -, hbl₁, hl₁⟩
  rw [List.length_range] at hbl₁ hl₁
  have hsize : s₁.barriers.size = g.size := by
    rw [← Array.length_toList, hbl₁, List.length_map, List.length_range]
  have hlay : s₁.LaidOut s.store.size := by
    rw [LaidOut, hsize]
    exact hbl₁
  refine Ends.bind (Ends.forIn (fun t s' => s'.Unstarted ∧ s'.root = s.root ∧
      s'.processors = s.processors ∧ s'.barriers = s₁.barriers ∧
      s'.store.Linked s.store.size g.size ((List.range t).flatMap g.successors))
    ⟨hu₁, hr₁, hp₁, rfl, by simpa using hl₁⟩ ?_) ?_
  · intro t ht s' hI
    rw [List.getElem_range]
    obtain ⟨hu', hr', hp', hb', hl'⟩ := hI
    rw [List.length_range] at ht
    refine (ends_successorPass hu' (hlay.of_barriers hb') (hb' ▸ hsize) ht hl' hg).mono ?_
      fun _ _ he => he
    rintro res s'' ⟨hres, hu'', hr'', hp'', hb'', hl''⟩
    exact ⟨hres, hu'', hr''.trans hr', hp''.trans hp', hb''.trans hb', hl''⟩
  · rintro _ s₂ ⟨hu₂, hr₂, hp₂, hb₂, hl₂⟩
    refine Ends.pure (hu₂.steady .constraintsInserted ⟨⟨r, hr₂.trans hr⟩, hp₂ ▸ hp,
      ⟨s.store.size, hlay.of_barriers hb₂, fun u hu => (hl₂ u ?_).2⟩, hu₂.unfired, hu₂.capped⟩)
    rwa [hb₂, hsize] at hu

theorem ends_linkPass_input {E : RunError → Store → Prop} {exit succ : Nat} {bs : TaskBarriers}
    {xbar bar : BarrierNode} {xout out : Array Nat} (hbs : s.barriers[succ]? = some bs)
    (hx : s.store.slots[exit]? = some ⟨.barrier xbar, xout⟩)
    (hb : s.store.slots[bs.entry]? = some ⟨.barrier bar, out⟩) (hsat : bar.satisfied = false) :
    Ends (linkPass exit succ ⟨⟩) s E fun res s' => res = .yield ⟨⟩ ∧ ∃ stats, s' = { s with
      store := (s.store.appendEdge exit bs.entry).setNode bs.entry (.barrier bar.addInput), stats } := by
  unfold linkPass
  refine Ends.bind_ok (run_get s) ?_
  simp only [hbs]
  refine Ends.bind (ends_addEdge_input ⟨_, hx, rfl⟩ hb hsat rfl) ?_
  rintro _ s' ⟨stats, rfl⟩
  exact Ends.pure ⟨rfl, stats, rfl⟩

/-- `n` edges from an unfired exit into the entry of task `succ`: the entry's count wraps at the
word's limit. -/
theorem ends_linkPass_replicate {E : RunError → Store → Prop} {exit succ n : Nat}
    {bs : TaskBarriers} {xbar bar : BarrierNode} {xout out : Array Nat}
    (hbs : s.barriers[succ]? = some bs) (hne : exit ≠ bs.entry)
    (hx : s.store.slots[exit]? = some ⟨.barrier xbar, xout⟩) (hxs : xbar.satisfied = false)
    (hb : s.store.slots[bs.entry]? = some ⟨.barrier bar, out⟩) (hsat : bar.satisfied = false)
    (hw : bar.waiting < BarrierNode.inputLimit) :
    Ends (forIn (List.replicate n succ) PUnit.unit (linkPass exit)) s E fun _ s' =>
      s'.phase = s.phase ∧ s'.barriers = s.barriers ∧
        s'.store.Waits bs.entry ((bar.waiting + n) % BarrierNode.inputLimit) ∧
        s'.store.inputs [] bs.entry = s.store.inputs [] bs.entry + n := by
  refine (Ends.forIn (fun i s' => s'.phase = s.phase ∧ s'.barriers = s.barriers ∧
      (∃ xout', s'.store.slots[exit]? = some ⟨.barrier xbar, xout'⟩) ∧
      (∃ bar' out', s'.store.slots[bs.entry]? = some ⟨.barrier bar', out'⟩ ∧
        bar'.satisfied = false ∧ bar'.waiting = (bar.waiting + i) % BarrierNode.inputLimit) ∧
      s'.store.inputs [] bs.entry = s.store.inputs [] bs.entry + i) ?_ ?_).mono ?_ fun _ _ he => he
  · exact ⟨rfl, rfl, ⟨xout, hx⟩, ⟨bar, out, hb, hsat, (Nat.mod_eq_of_lt hw).symm⟩, rfl⟩
  · rintro i - s' ⟨hph, hbar, ⟨xout', hx'⟩, ⟨bar', out', hb', hsat', hw'⟩, hin⟩
    rw [List.getElem_replicate]
    refine (ends_linkPass_input (hbar ▸ hbs) hx' hb' hsat').mono ?_ fun _ _ he => he
    rintro res _ ⟨hres, stats, rfl⟩
    obtain ⟨o, ho⟩ := Store.node_appendEdge hx' exit bs.entry
    obtain ⟨o', ho'⟩ := Store.node_appendEdge hb' exit bs.entry
    refine ⟨hres, hph, hbar, ⟨o, ?_⟩, ⟨bar'.addInput, o', Store.getElem?_setNode_self ho' _, hsat', ?_⟩,
      ?_⟩
    · rw [Store.getElem?_setNode, if_neg (Ne.symm hne), ho]
    · rw [BarrierNode.addInput, hw', Nat.mod_add_mod, Nat.add_assoc]
    · rw [Store.inputs_setNode (n := .barrier bar'.addInput) ho' rfl, Store.inputs_appendEdge hx', hin]
      simp [Slot.isPending, hxs, Nat.add_assoc]
  · rintro _ s' ⟨hph, hbar, -, ⟨bar', out', hb', -, hw'⟩, hin⟩
    rw [List.length_replicate] at hw' hin
    exact ⟨hph, hbar, ⟨bar', out', hb', hw'⟩, hin⟩

/-! The units. -/

/-- One unit of task `t`, of a valid time, between the task's barriers: its exit awaits one more
input, which the store's room keeps below the word's limit; an invalid time fails. -/
theorem ends_unitPass (h : s.Unstarted) {base t k : Nat} {time : Double} (y : Double × Nat)
    (hlay : s.LaidOut base) (ht : t < s.barriers.size) (hw : s.store.Waits (base + 2 * t + 1) k)
    (hk : k < s.store.size) :
    Ends (unitPass (TaskBarriers.at base t) t time y ⟨⟩) s RunError.Expected fun res s' =>
      res = .yield ⟨⟩ ∧ s'.Unstarted ∧ s'.root = s.root ∧ s'.processors = s.processors ∧
        s'.barriers = s.barriers ∧ s'.store.Waits (base + 2 * t + 1) (k + 1) ∧
        k + 1 < s'.store.size ∧
        ∀ i w, i ≠ base + 2 * t + 1 → s.store.Waits i w → s'.store.Waits i w := by
  obtain ⟨x, k'⟩ := y
  obtain ⟨⟨⟨en, eo⟩, hen, hek⟩, -⟩ := h.marked.at hlay ht
  cases en with
  | barrier ebar =>
    unfold unitPass
    dsimp only
    cases hv : x.isValidTime
    · simp only [Bool.not_false, if_true]
      exact Ends.bind (Q := fun _ _ => False) (Ends.throw rfl) fun _ _ h => h.elim
    simp only [Bool.not_true, Bool.false_eq_true, if_false]
    refine Ends.bind (ends_addVertex _) ?_
    rintro u s₁ ⟨rfl, hroom, stats, rfl⟩
    have hlt : base + 2 * t < s.store.size := Store.HasKind.lt_size ⟨_, hen, rfl⟩
    have hen₁ : (s.store.append (.unit (UnitNode.new ⟨t, k'⟩ x time))).slots[base + 2 * t]? =
        some ⟨.barrier ebar, eo⟩ := by
      rw [Store.getElem?_append, if_neg (Nat.ne_of_lt hlt), hen]
    have hun : (s.store.append (.unit (UnitNode.new ⟨t, k'⟩ x time))).slots[s.store.size]? =
        some ⟨.unit (UnitNode.new ⟨t, k'⟩ x time), #[]⟩ := by
      rw [Store.getElem?_append, if_pos rfl]
    have hidle : ¬ (s.store.append (.unit (UnitNode.new ⟨t, k'⟩ x time))).HasKind s.store.size
        .barrier ∧ ∀ un out, (s.store.append (.unit (UnitNode.new ⟨t, k'⟩ x time))).slots[s.store.size]? =
          some ⟨.unit un, out⟩ → (s.store.append (.unit (UnitNode.new ⟨t, k'⟩ x time))).inputs []
            s.store.size + s.queue.count s.store.size + un.isScheduled.toNat = 0 := by
      refine ⟨?_, ?_⟩
      · rintro ⟨_, hs, hk⟩
        rw [hun] at hs
        cases hs
        cases hk
      · intro un out hs
        rw [hun] at hs
        cases hs
        have := h.balanced.load_new
        rw [Store.inputs_append]
        simpa [UnitNode.isScheduled, UnitNode.new] using this
    have hu₁ := h.append (n := .unit (UnitNode.new ⟨t, k'⟩ x time)) (by simp [Node.kind])
      (fun _ hb => by cases hb) stats
    have hu₂ := hu₁.appendEdge hen₁ (by simp) (fun _ => hidle) stats
    refine Ends.bind (ends_addEdge_inert ⟨_, hen₁, rfl⟩ ⟨_, hun, rfl⟩ rfl) ?_
    rintro _ s₂ ⟨stats₂, rfl⟩
    obtain ⟨bar, out, hx, hwk⟩ := (hw.append _).appendEdge (base + 2 * t) s.store.size
    obtain ⟨ou, hun₂⟩ := Store.node_appendEdge hun (base + 2 * t) s.store.size
    have hw' : bar.waiting + 1 < BarrierNode.inputLimit :=
      hwk ▸ BarrierNode.succ_lt_inputLimit (by have := h.capped; omega)
    refine Ends.bind (ends_addEdge_input ⟨_, hun₂, rfl⟩ hx (hu₂.unfired _ _ _ hx) rfl) ?_
    rintro _ s₃ ⟨stats₃, rfl⟩
    refine Ends.pure ⟨rfl, hu₂.addInput hun₂ rfl hx hw' stats₃, rfl, rfl, rfl, ?_, by simp; omega,
      fun i w hi hiw => ((hiw.append _).appendEdge _ _).input (Ne.symm hi) _⟩
    rw [← hwk]
    exact Store.waits_input hx hw' _
  | _ => cases hek

/-- The units of task `t` between its barriers, or an edge from its entry to its exit when it
has none. -/
theorem ends_taskPass (h : s.Unstarted) {base t : Nat} (g : TaskGraph) (split : Split)
    (time : Double) (hlay : s.LaidOut base) (ht : t < s.barriers.size)
    (hw : ∀ u, t ≤ u → u < s.barriers.size → s.store.Waits (base + 2 * u + 1) 0) :
    Ends (taskPass g split time (TaskBarriers.at base t, t) ⟨⟩) s RunError.Expected fun res s' =>
      res = .yield ⟨⟩ ∧ s'.Unstarted ∧ s'.root = s.root ∧ s'.processors = s.processors ∧
        s'.barriers = s.barriers ∧
        ∀ u, t + 1 ≤ u → u < s.barriers.size → s'.store.Waits (base + 2 * u + 1) 0 := by
  unfold taskPass
  dsimp only
  by_cases he : (g.unitTimes split t).isEmpty = true
  · rw [if_pos he]
    obtain ⟨bar, out, hx, hw0⟩ := hw t (Nat.le_refl t) ht
    obtain ⟨⟨⟨en, eo⟩, hen, hek⟩, -⟩ := h.marked.at hlay ht
    cases en with
    | barrier ebar =>
      refine Ends.bind (ends_addEdge_input ⟨_, hen, rfl⟩ hx (h.unfired _ _ _ hx) rfl) ?_
      rintro _ s' ⟨stats, rfl⟩
      exact Ends.pure ⟨rfl, h.addInput hen (by simp [Slot.isPending, h.unfired _ _ _ hen]) hx
        (by rw [hw0]; exact BarrierNode.succ_lt_inputLimit (by simp [maxVertices])) stats, rfl, rfl,
        rfl, fun u hu hun => (hw u (by omega) hun).input (by simp only [TaskBarriers.at]; omega) _⟩
    | _ => cases hek
  · rw [if_neg he]
    have hx0 := hw t (Nat.le_refl t) ht
    refine Ends.bind (Ends.forIn (fun k s' => s'.Unstarted ∧ s'.root = s.root ∧
        s'.processors = s.processors ∧ s'.barriers = s.barriers ∧
        s'.store.Waits (base + 2 * t + 1) k ∧ k < s'.store.size ∧
        ∀ u, t + 1 ≤ u → u < s.barriers.size → s'.store.Waits (base + 2 * u + 1) 0)
      ⟨h, rfl, rfl, rfl, hx0, Nat.lt_of_le_of_lt (Nat.zero_le _) hx0.hasKind.lt_size,
        fun u hu hun => hw u (by omega) hun⟩ ?_) ?_
    · intro k _ s' hI
      obtain ⟨hu', hr', hp', hb', hwk, hks, hws⟩ := hI
      refine (ends_unitPass hu' _ (hlay.of_barriers hb') (hb' ▸ ht) hwk hks).mono ?_ fun _ _ he => he
      rintro res s'' ⟨hres, hu'', hr'', hp'', hb'', hwk', hks', hfr⟩
      exact ⟨hres, hu'', hr''.trans hr', hp''.trans hp', hb''.trans hb', hwk', hks',
        fun u hu hun => hfr _ _ (by omega) (hws u hu hun)⟩
    · rintro _ s' ⟨hu', hr', hp', hb', -, -, hw'⟩
      exact Ends.pure ⟨rfl, hu', hr', hp', hb', hw'⟩

theorem ends_insertTasks (h : s.Steady) (hph : s.phase = .constraintsInserted) (g : TaskGraph)
    (split : Split) :
    Ends (insertTasks g split) s RunError.Expected fun _ s' => s'.Steady := by
  have hs := h.staged
  rw [hph] at hs
  obtain ⟨⟨r, hr⟩, hp, ⟨base, hlay, hexits⟩, hunf, hcap⟩ := hs
  have hu : s.Unstarted := ⟨h.balanced, h.staffed, h.marked, hunf, hcap⟩
  obtain ⟨t₀, hrv⟩ := h.marked.run_rootVertex hr
  rw [insertTasks_eq]
  refine Ends.bind_ok (run_enter hph (by decide)) ?_
  refine Ends.finishStep_of ?_
  refine Ends.bind_ok hrv ?_
  dsimp only
  refine Ends.bind_ok (run_get s) ?_
  rw [hlay]
  refine Ends.bind (Ends.forIn (fun t s' => s'.Unstarted ∧ s'.root = s.root ∧
      s'.processors = s.processors ∧ s'.barriers = s.barriers ∧
      ∀ u, t ≤ u → u < s.barriers.size → s'.store.Waits (base + 2 * u + 1) 0)
    ⟨hu, rfl, rfl, rfl, fun u _ hu => hexits u hu⟩ ?_) ?_
  · intro t ht s' hI
    rw [List.length_zipIdx, List.length_map, List.length_range] at ht
    have hxt : ((List.range s.barriers.size).map (TaskBarriers.at base)).zipIdx[t] =
        (TaskBarriers.at base t, t) := by
      simp [List.getElem_zipIdx]
    rw [hxt]
    obtain ⟨hu', hr', hp', hb', hw'⟩ := hI
    refine (ends_taskPass hu' g split t₀ (hlay.of_barriers hb') (hb' ▸ ht)
      fun u hu hun => hw' u hu (hb' ▸ hun)).mono ?_ fun _ _ he => he
    rintro res s'' ⟨hres, hu'', hr'', hp'', hb'', hw''⟩
    exact ⟨hres, hu'', hr''.trans hr', hp''.trans hp', hb''.trans hb',
      fun u hu hun => hw'' u hu (hb'.symm ▸ hun)⟩
  · rintro _ s' ⟨hu', hr', hp', hb', -⟩
    exact Ends.pure (hu'.steady .tasksInserted ⟨⟨r, hr'.trans hr⟩, hp' ▸ hp,
      ⟨base, hlay.of_barriers hb'⟩, hu'.unfired⟩)

end Run

end ListScheduling
