import ListScheduling.Proofs.Scheduler.Backlog

/-!
How long the loops of a run last.
-/
namespace ListScheduling

/-- A unit not yet placed on a processor. -/
def Node.unplaced : Node → Bool
  | .unit u => !u.isScheduled
  | _ => false

namespace Store

/-- The edges of the barriers not yet satisfied. -/
def openEdges (st : Store) : Nat := st.total fun slot => if slot.isOpen then slot.out.size else 0

/-- The units not yet placed. -/
def unplacedCount (st : Store) : Nat := st.total fun slot => slot.node.unplaced.toNat

variable {st : Store}

theorem armedEdges_le_openEdges (h : st.Settled) : st.armedEdges ≤ st.openEdges := by
  refine List.sum_le_sum fun slot hs => ?_
  obtain ⟨n, out⟩ := slot
  cases n with
  | barrier b =>
    have hb : b.satisfied = true → b.waiting = 0 := h _ hs
    cases hsat : b.satisfied
    · rcases Nat.eq_zero_or_pos b.waiting with hw | hw <;> simp [Slot.waiting, Slot.isOpen, hsat, hw]
    · simp [Slot.waiting, hb hsat]
  | _ => simp [Slot.waiting]

theorem unplacedCount_setNode {i : Nat} {slot : Slot} (h : st.slots[i]? = some slot) (n : Node) :
    (st.setNode i n).unplacedCount + slot.node.unplaced.toNat =
      st.unplacedCount + n.unplaced.toNat :=
  total_setNode _ h n

theorem unplacedCount_setNode_of_eq {i : Nat} {slot : Slot} (h : st.slots[i]? = some slot)
    {n : Node} (hn : n.unplaced = slot.node.unplaced) :
    (st.setNode i n).unplacedCount = st.unplacedCount := by
  have hs := unplacedCount_setNode h n
  rw [hn] at hs
  omega

theorem unplacedCount_append (n : Node) :
    (st.append n).unplacedCount = st.unplacedCount + n.unplaced.toNat :=
  total_append _ n

theorem unplacedCount_appendEdge {src : Nat} {slot : Slot} (h : st.slots[src]? = some slot)
    (dst : Nat) : (st.appendEdge src dst).unplacedCount = st.unplacedCount := by
  have ht := total_appendEdge (fun slot => slot.node.unplaced.toNat) h dst
  dsimp only at ht
  unfold unplacedCount
  omega

theorem unplacedCount_le_size (st : Store) : st.unplacedCount ≤ st.size := by
  have h := List.sum_le_card_nsmul (st.slots.toList.map fun slot => slot.node.unplaced.toNat) 1
    fun _ hx => by
      obtain ⟨slot, -, rfl⟩ := List.mem_map.1 hx
      exact Bool.toNat_le _
  simpa [unplacedCount, total, size] using h

/-- A placement: processor node `p` occupied, unit `u` placed, a new vertex that is no unplaced
unit, and an edge from the unit. One unit fewer is unplaced. -/
theorem unplacedCount_place {p u : Nat} {node : ProcessorNode} {un : UnitNode} {op ou : Array Nat}
    (hp : st.slots[p]? = some ⟨.processor node, op⟩) (hu : st.slots[u]? = some ⟨.unit un, ou⟩)
    (hsch : un.processor = none) (hpu : p ≠ u) {m : Node} (hm : m.unplaced = false) (q : Nat) :
    ((((st.setNode p (.processor { node with occupied := true })).setNode u
      (.unit (Run.placedUnit un node))).append m).appendEdge u q).unplacedCount + 1 =
        st.unplacedCount := by
  have hu₁ : (st.setNode p (.processor { node with occupied := true })).slots[u]? =
      some ⟨.unit un, ou⟩ := by
    rw [getElem?_setNode, if_neg hpu, hu]
  have hlt : u < st.size := (Array.getElem?_eq_some_iff.1 hu).1
  have hu₃ : (((st.setNode p (.processor { node with occupied := true })).setNode u
      (.unit (Run.placedUnit un node))).append m).slots[u]? =
        some ⟨.unit (Run.placedUnit un node), ou⟩ := by
    rw [getElem?_append, if_neg (by simpa using Nat.ne_of_lt hlt), getElem?_setNode, if_pos rfl,
      hu₁]
    rfl
  have hun : (Node.unit un).unplaced = true := by simp [Node.unplaced, UnitNode.isScheduled, hsch]
  have hplaced : (Node.unit (Run.placedUnit un node)).unplaced = false := by
    simp [Node.unplaced, UnitNode.isScheduled, Run.placedUnit]
  have h₁ := unplacedCount_setNode hp (.processor { node with occupied := true })
  have h₂ := unplacedCount_setNode hu₁ (.unit (Run.placedUnit un node))
  rw [hun, hplaced] at h₂
  simp only [Node.unplaced, Bool.toNat_false, Bool.toNat_true] at h₁ h₂
  rw [unplacedCount_appendEdge hu₃, unplacedCount_append, hm, Bool.toNat_false]
  omega

end Store

namespace Run

variable {s s' : Scheduler}

theorem Taken.unplacedCount {a b : Nat} {o : Except RunError (List (Nat × Nat)) × Scheduler}
    (h : Taken s a b o) : o.2.store.unplacedCount = s.store.unplacedCount := by
  cases h with
  | fail => rfl
  | skip => rfl
  | release _ hb => exact Store.unplacedCount_setNode_of_eq hb rfl
  | wait _ hb _ => exact Store.unplacedCount_setNode_of_eq hb rfl
  | fire _ hb _ => exact Store.unplacedCount_setNode_of_eq hb rfl

theorem unplacedCount_drainWith (fuel : Nat) : ∀ {stack : List (Nat × Nat)} {s : Scheduler},
    ((drainWith fuel stack).run.run s).2.store.unplacedCount = s.store.unplacedCount := by
  induction fuel with
  | zero => intro stack s; rfl
  | succ fuel ih =>
    intro stack s
    match stack with
    | [] => rw [run_drainWith_nil]
    | (a, b) :: rest =>
      have ht := (taken_propagate (s := s) (a := a) (b := b)).unplacedCount
      rw [run_drainWith_cons]
      rcases hp : (propagate a b).run.run s with ⟨e | next, s₁⟩
      · rw [run_bind_error hp]
        rw [hp] at ht
        exact ht
      · rw [run_bind_ok hp, ih]
        rw [hp] at ht
        exact ht

theorem unplacedCount_drain (stack : List (Nat × Nat)) (s : Scheduler) :
    ((drain stack).run.run s).2.store.unplacedCount = s.store.unplacedCount := by
  rw [run_drain]
  exact unplacedCount_drainWith _

theorem unplacedCount_of_addEdge_ok {p u : Nat}
    (h : (addEdge .processor .unit p u).run.run s = (.ok (), s')) :
    s'.store.unplacedCount + 1 = s.store.unplacedCount := by
  cases hc : s.store.checkEdge .processor .unit p u with
  | error e =>
    unfold addEdge at h
    rw [run_guarded_error (run_bind_error (run_recordEdge_error hc))] at h
    cases h
  | ok _ =>
    obtain ⟨⟨a, ha, -⟩, -⟩ := Store.slots_of_checkEdge hc
    rw [run_addEdge hc] at h
    have h₁ := run_eq_of_guarded_ok h
    simp only [react] at h₁
    obtain ⟨node, op, un, ou, hp, hocc, hu, hsch, hpu, hroom⟩ := assign_ok h₁
    obtain ⟨st, hrun⟩ := run_assign hp hocc hu hsch hpu hroom
    rw [hrun] at h₁
    have hd := congrArg (·.2.store.unplacedCount) h₁
    rw [unplacedCount_drain] at hd
    dsimp only at hd
    rw [← hd, ← Store.unplacedCount_appendEdge ha u]
    exact Store.unplacedCount_place hp hu hsch hpu rfl _

/-- The rounds of list scheduling from a state, as the loop runs them until the queue is empty. -/
inductive Dispatches : Scheduler → Nat → Except RunError Unit → Scheduler → Prop
  | done {s : Scheduler} : s.queue.pop? = none → Dispatches s 0 (.ok ()) s
  | stuck {s s' : Scheduler} {u : Nat} {q : ReadyQueue SortedHeap} {r : Except RunError Unit} :
      s.queue.pop? = some (u, q) → s.store.earliestFree = none →
      (do
        let unit ← liftStore (s.store.unitAt u)
        throw (.noAvailableProcessor unit.id) : Run Unit).run.run { s with queue := q } = (r, s') →
      Dispatches s 1 r s'
  | fail {s s' : Scheduler} {u p : Nat} {q : ReadyQueue SortedHeap} {e : RunError} :
      s.queue.pop? = some (u, q) → s.store.earliestFree = some p →
      (addEdge .processor .unit p u).run.run { s with queue := q } = (.error e, s') →
      Dispatches s 1 (.error e) s'
  | round {s s₁ s' : Scheduler} {u p n : Nat} {q : ReadyQueue SortedHeap} {r : Except RunError Unit} :
      s.queue.pop? = some (u, q) → s.store.earliestFree = some p →
      (addEdge .processor .unit p u).run.run { s with queue := q } = (.ok (), s₁) →
      Dispatches s₁ n r s' → Dispatches s (n + 1) r s'

theorem exists_dispatches (s : Scheduler) : ∃ n r s', Dispatches s n r s' := by
  cases h : s.queue.pop? with
  | none => exact ⟨0, _, _, .done h⟩
  | some uq =>
    obtain ⟨u, q⟩ := uq
    cases hp : s.store.earliestFree with
    | none => exact ⟨1, _, _, .stuck h hp rfl⟩
    | some p =>
      rcases he : (addEdge .processor .unit p u).run.run { s with queue := q } with
        ⟨e | ⟨⟩, s₁⟩
      · exact ⟨1, _, _, .fail h hp he⟩
      · obtain ⟨n, r, s', hd⟩ := exists_dispatches s₁
        exact ⟨n + 1, r, s', .round h hp he hd⟩
termination_by s.store.unplacedCount
decreasing_by
  have hm := unplacedCount_of_addEdge_ok he
  dsimp only at hm
  omega

theorem Dispatches.run_dispatchWith {n : Nat} {r : Except RunError Unit} (h : Dispatches s n r s')
    {fuel : Nat} (hf : s.store.unplacedCount < fuel) : (dispatchWith fuel).run.run s = (r, s') := by
  induction h generalizing fuel with
  | done h =>
    obtain ⟨k, rfl⟩ := Nat.exists_eq_add_one_of_ne_zero (Nat.ne_zero_of_lt hf)
    simp only [dispatchWith, run_get_bind, h]
    rfl
  | stuck h hp hr =>
    obtain ⟨k, rfl⟩ := Nat.exists_eq_add_one_of_ne_zero (Nat.ne_zero_of_lt hf)
    simp only [dispatchWith, run_get_bind, h, run_set_bind, hp]
    exact hr
  | fail h hp he =>
    obtain ⟨k, rfl⟩ := Nat.exists_eq_add_one_of_ne_zero (Nat.ne_zero_of_lt hf)
    simp only [dispatchWith, run_get_bind, h, run_set_bind, hp]
    exact run_bind_error he
  | round h hp he _ ih =>
    obtain ⟨k, rfl⟩ := Nat.exists_eq_add_one_of_ne_zero (Nat.ne_zero_of_lt hf)
    have hm := unplacedCount_of_addEdge_ok he
    dsimp only at hm
    simp only [dispatchWith, run_get_bind, h, run_set_bind, hp]
    rw [run_bind_ok he]
    exact ih (by omega)

theorem Dispatches.rounds_le {n : Nat} {r : Except RunError Unit} (h : Dispatches s n r s')
    (hb : s.Backed []) : n ≤ s.backlog [] := by
  induction h with
  | done => exact Nat.zero_le _
  | stuck h => exact (Scheduler.backlog_of_pop? h []).symm ▸ Nat.le_add_left 1 _
  | fail h => exact (Scheduler.backlog_of_pop? h []).symm ▸ Nat.le_add_left 1 _
  | @round s s₁ s' u p n q r h hp he _ ih =>
    have hq := Scheduler.backlog_of_pop? h []
    have hs₁ : Scheduler.quiet.rel { s with queue := q } s₁ := by
      have hb₀ : ({ s with queue := q } : Scheduler).Backed [] :=
        ⟨hb.closed, Nat.le_of_succ_le (hq.trans_le hb.bounded)⟩
      have hr := quiet_addEdge (show NodeKind.processor ≠ .barrier ∨ NodeKind.unit ≠ .unit from
        .inl (by decide)) p u _ hb₀
      rwa [he] at hr
    have := ih hs₁.1
    have := hs₁.2
    omega

end Run

namespace Call

theorem tallies_run_fresh (c : Call) (hc : ∀ n, c = .addVertex n → n.Fresh) :
    Run.Tallies True c.run := by
  cases c with
  | command c => exact c.tallies_run
  | addVertex n => exact (Run.tallies_addVertex fun _ => hc n rfl).bind fun _ => Run.Respects.pure _
  | addEdge fk tk src dst => exact Run.tallies_addEdge fk tk src dst

end Call

theorem settled_runAll {priority : UnitId → Double} {limit : Nat} {calls : List Call}
    (hc : ∀ n, Call.addVertex n ∈ calls → n.Fresh) :
    (Call.runAll calls (Scheduler.new priority (Store.withLimit limit))).store.Settled := by
  suffices h : ∀ s : Scheduler, s.Tally True → (Call.runAll calls s).Tally True from
    (h _ (.new priority limit)).settled trivial
  induction calls with
  | nil => exact fun _ h => h
  | cons c calls ih =>
    intro s h
    refine ih (fun n hn => hc n (List.mem_cons_of_mem _ hn)) _ (c.tallies_run_fresh ?_ s h)
    rintro n rfl
    exact hc n List.mem_cons_self

open Run in
/-- The loops of a run end, within bounds. -/
theorem loops_end_within_bounds :
    (∀ (s : Scheduler) (stack : List (Nat × Nat)), ∃ tr r s', Drains s stack tr r s' ∧
      tr.length ≤ stack.length + s.store.armedEdges ∧
      (s.store.EdgeBound → (drain stack).run.run s = (r, s'))) ∧
    (∀ st : Store, st.Settled → st.armedEdges ≤ st.openEdges) ∧
    (∀ s : Scheduler, ∃ n r s', Dispatches s n r s' ∧
      (dispatchWith (s.store.size + 1)).run.run s = (r, s') ∧
      (s.Backed [] → n ≤ s.store.releaseEdges)) ∧
    ∀ (priority : UnitId → Double) (limit : Nat) (calls : List Call),
      let s := Call.runAll calls (Scheduler.new priority (Store.withLimit limit))
      s.store.EdgeBound ∧ s.Backed [] ∧
        ((∀ n, Call.addVertex n ∈ calls → n.Fresh) → s.store.Settled) := by
  refine ⟨fun s stack => ?_, fun _ h => Store.armedEdges_le_openEdges h, fun s => ?_,
    fun priority limit calls => ⟨(counted_runAll _ _ _).edgeBound, backed_runAll _ _ _,
      settled_runAll⟩⟩
  · obtain ⟨tr, r, s', hd⟩ := exists_drains s stack
    exact ⟨tr, r, s', hd, hd.length_le, hd.run_drain⟩
  · obtain ⟨n, r, s', hd⟩ := exists_dispatches s
    exact ⟨n, r, s', hd, hd.run_dispatchWith (Nat.lt_succ_of_le s.store.unplacedCount_le_size),
      fun hb => (hd.rounds_le hb).trans hb.bounded⟩

/-- A chain of four barriers built through the sink, the middle two satisfied but each still
awaiting an input. -/
def satisfiedChainRun : Scheduler :=
  Call.runAll [.addVertex (.root Double.zero), .addVertex (.barrier (BarrierNode.new Double.zero)),
    .addVertex (.barrier { BarrierNode.new Double.zero with waiting := 1, satisfied := true }),
    .addVertex (.barrier { BarrierNode.new Double.zero with waiting := 1, satisfied := true }),
    .addVertex (.barrier (BarrierNode.new Double.zero)), .addEdge .barrier .barrier 3 4,
    .addEdge .barrier .barrier 2 3, .addEdge .barrier .barrier 1 2]
    (Scheduler.new (fun _ => Double.zero) (Store.withLimit 8))

theorem Run.Drains.passes {s s' : Scheduler} {a b : Nat} {rest tr : List (Nat × Nat)}
    {r : Except RunError Unit} (next : List (Nat × Nat))
    (h : ((Run.propagate a b).run.run s).1 = .ok next)
    (hd : Run.Drains ((Run.propagate a b).run.run s).2 (next ++ rest) tr r s') :
    Run.Drains s ((a, b) :: rest) ((a, b) :: tr) r s' :=
  .step (Prod.ext h rfl) hd

open Run in
set_option maxRecDepth 4000 in
/-- Linking the root to the chain fires all four barriers in three steps of the spreading. -/
theorem drain_outruns_open_edges :
    ∃ s₁, (Call.addEdge .root .barrier 0 1).run.run.run satisfiedChainRun =
        (guarded (drain [(1, 2)])).run.run s₁ ∧
      ∃ tr r s₂, Drains s₁ [(1, 2)] tr r s₂ ∧
        [(1, 2)].length + satisfiedChainRun.store.openEdges < tr.length ∧
        [(1, 2)].length + s₁.store.openEdges < tr.length := by
  have hedge : satisfiedChainRun.store.checkEdge .root .barrier 0 1 = .ok () := by decide +kernel
  have hr : (satisfiedChainRun.store.appendEdge 0 1).slots[0]? = some ⟨.root Double.zero, #[1]⟩ := by
    rfl
  have hb : (satisfiedChainRun.store.appendEdge 0 1).slots[1]? =
      some ⟨.barrier (BarrierNode.new Double.zero), #[2]⟩ := by
    rfl
  have hfire := run_releaseFromRoot (s := { satisfiedChainRun with
    store := satisfiedChainRun.store.appendEdge 0 1
    stats.edges := satisfiedChainRun.stats.edges + 1 }) hr hb rfl rfl
  refine ⟨_, (run_addEdge hedge).trans
    (run_guarded_congr (x := react .root .barrier 0 1) (y := drain [(1, 2)]) hfire), ?_⟩
  exact ⟨[(1, 2), (2, 3), (3, 4)], _, _,
    Drains.passes [(2, 3)] (by decide +kernel) (Drains.passes [(3, 4)] (by decide +kernel)
      (Drains.passes [] (by decide +kernel) (.done _))),
    by decide +kernel, by decide +kernel⟩

end ListScheduling
