import ListScheduling.Proofs.Scheduler.Counts

/-!
Readiness spreads depth first.
-/
namespace ListScheduling

@[simp] theorem BarrierNode.waiting_fire (b : BarrierNode) : b.fire.waiting = b.waiting := rfl

/-- The edges of the barriers that still await an input: each such barrier can fire once more
and stack them. -/
def Store.armedEdges (st : Store) : Nat :=
  st.total fun slot => if 0 < slot.waiting then slot.out.size else 0

theorem Store.armedEdges_setNode {st : Store} {i : Nat} {slot : Slot} (h : st.slots[i]? = some slot)
    (n : Node) :
    (st.setNode i n).armedEdges + (if 0 < slot.waiting then slot.out.size else 0) =
      st.armedEdges + (if 0 < ({ slot with node := n } : Slot).waiting then slot.out.size else 0) :=
  Store.total_setNode _ h n

theorem Store.armedEdges_setNode_of_waiting {st : Store} {i : Nat} {slot : Slot}
    (h : st.slots[i]? = some slot) {n : Node} (hs : slot.waiting = 0)
    (hn : ({ slot with node := n } : Slot).waiting = 0) : (st.setNode i n).armedEdges = st.armedEdges := by
  have hm := armedEdges_setNode h n
  rw [hs, hn] at hm
  simpa using hm

theorem Store.EdgeBound.armedEdges_le {st : Store} (h : st.EdgeBound) :
    st.armedEdges ≤ st.awaited * st.numEdges := by
  rw [armedEdges, total, awaited_eq_sum, ← List.sum_map_mul_right]
  refine List.sum_le_sum fun slot hslot => ?_
  split
  · exact (h slot hslot).trans (Nat.le_mul_of_pos_left _ ‹_›)
  · exact Nat.zero_le _

theorem Scheduler.Counted.edgeBound {s : Scheduler} (h : s.Counted) : s.store.EdgeBound := by
  intro slot hslot
  rw [h.outs, Store.edgeTotal, Store.total]
  exact List.le_sum_of_mem (List.mem_map_of_mem hslot)

namespace Run

variable {s s' : Scheduler} {a b : Nat} {next : List (Nat × Nat)}

/-! One step: how taking an edge ends, and what that does to the measure. -/

/-- How taking the edge from `a` to `b` in state `s` ends. A failure changes nothing, and neither
does an edge that is no input and no release. -/
inductive Taken (s : Scheduler) (a b : Nat) : Except RunError (List (Nat × Nat)) × Scheduler → Prop
  | fail (e : RunError) : Taken s a b (.error e, s)
  | skip : Taken s a b (.ok [], s)
  | release {bar : BarrierNode} {out : Array Nat} {un : UnitNode} {ou : Array Nat} :
      s.store.slots[a]? = some ⟨.barrier bar, out⟩ → s.store.slots[b]? = some ⟨.unit un, ou⟩ →
      Taken s a b (.ok [], { s with
        store := s.store.setNode b (.unit { un with timing := un.timing.advance bar.timing.finish })
        queue := s.queue.push b (s.priority un.id) })
  | wait {sa : Slot} {bar : BarrierNode} {out : Array Nat} :
      s.store.slots[a]? = some sa → s.store.slots[b]? = some ⟨.barrier bar, out⟩ →
      1 < bar.waiting →
      Taken s a b (.ok [], { s with store := s.store.setNode b (.barrier
        { bar with waiting := bar.waiting - 1, timing := bar.timing.advance sa.node.finishTime }) })
  | fire {sa : Slot} {bar : BarrierNode} {out : Array Nat} :
      s.store.slots[a]? = some sa → s.store.slots[b]? = some ⟨.barrier bar, out⟩ →
      bar.waiting = 1 →
      Taken s a b (.ok (out.toList.map (b, ·)), { s with
        store := s.store.setNode b (.barrier
          { bar with waiting := 0, timing := bar.timing.advance sa.node.finishTime }.fire)
        stats.barriersFired := s.stats.barriersFired + 1 })

theorem taken_satisfyInput : Taken s a b ((satisfyInput a b).run.run s) := by
  cases ha : s.store.slots[a]? with
  | none =>
    have hrun : (satisfyInput a b).run.run s = (.error (.store (.unknownVertex a)), s) := by
      simp only [satisfyInput, run_get_bind, Store.get_eq_error ha, run_liftStore_error_bind]
    exact hrun ▸ .fail _
  | some sa =>
    cases hb : s.store.barrierAt b with
    | error e =>
      have hrun : (satisfyInput a b).run.run s = (.error (.store e), s) := by
        simp only [satisfyInput, run_get_bind, Store.get_eq ha, run_liftStore_ok_bind, hb,
          run_liftStore_error_bind]
      exact hrun ▸ .fail _
    | ok bar =>
      obtain ⟨out, hslot⟩ := Store.slot_of_barrierAt hb
      rcases Nat.lt_trichotomy bar.waiting 1 with hw | hw | hw
      · have hrun : (satisfyInput a b).run.run s = (.error (.barrierUnderflow b), s) := by
          simp only [satisfyInput, run_get_bind, Store.get_eq ha, run_liftStore_ok_bind, hb,
            show bar.waiting = 0 by omega, if_true, run_throw_bind]
        exact hrun ▸ .fail _
      · exact (run_satisfyInput_fire ha hslot hw) ▸ .fire ha hslot hw
      · exact (run_satisfyInput_wait ha hslot hw) ▸ .wait ha hslot hw

/-- Every way taking an edge can end is one of `Taken`. -/
theorem taken_propagate : Taken s a b ((propagate a b).run.run s) := by
  cases ha : s.store.slots[a]? with
  | none =>
    have hrun : (propagate a b).run.run s = (.error (.store (.unknownVertex a)), s) := by
      simp only [propagate, run_get_bind, Store.kindAt_eq_error ha, run_liftStore_error_bind]
    exact hrun ▸ .fail _
  | some sa =>
    cases hb : s.store.slots[b]? with
    | none =>
      have hrun : (propagate a b).run.run s = (.error (.store (.unknownVertex b)), s) := by
        simp only [propagate, run_get_bind, Store.kindAt_eq ha, run_liftStore_ok_bind,
          Store.kindAt_eq_error hb, run_liftStore_error_bind]
      exact hrun ▸ .fail _
    | some sb =>
      obtain ⟨na, oa⟩ := sa
      obtain ⟨nb, ob⟩ := sb
      rw [run_propagate ha hb]
      split
      · exact taken_satisfyInput
      · exact taken_satisfyInput
      · rename_i hka hkb
        cases na <;> cases hka
        cases nb <;> cases hkb
        exact (run_bind_ok (run_releaseUnit ha hb)) ▸ .release ha hb
      · exact .skip

theorem armedEdges_propagate (h : (propagate a b).run.run s = (.ok next, s')) :
    next.length + s'.store.armedEdges = s.store.armedEdges := by
  have ht : Taken s a b (.ok next, s') := h ▸ taken_propagate
  cases ht with
  | skip => simp
  | release _ hb => rw [List.length_nil, Nat.zero_add, Store.armedEdges_setNode_of_waiting hb rfl rfl]
  | @wait sa bar out _ hb hw =>
    have hm := Store.armedEdges_setNode hb (.barrier
      { bar with waiting := bar.waiting - 1, timing := bar.timing.advance sa.node.finishTime })
    simp only [Slot.waiting, show 0 < bar.waiting - 1 by omega, show 0 < bar.waiting by omega,
      if_true] at hm
    simp only [List.length_nil]
    omega
  | @fire sa bar out _ hb hw =>
    have hm := Store.armedEdges_setNode hb (.barrier
      { bar with waiting := 0, timing := bar.timing.advance sa.node.finishTime }.fire)
    simp only [Slot.waiting, BarrierNode.waiting_fire, hw, Nat.lt_irrefl, if_false,
      Nat.lt_one_iff, if_true] at hm
    simp only [List.length_map, Array.length_toList]
    omega

/-! The loop and the recursion. -/

/-- The spreading as a loop over an explicit stack, with no bound on its steps. -/
inductive Drains : Scheduler → List (Nat × Nat) → List (Nat × Nat) → Except RunError Unit →
    Scheduler → Prop
  | done (s : Scheduler) : Drains s [] [] (.ok ()) s
  | fail {s s' : Scheduler} {a b : Nat} {rest : List (Nat × Nat)} {e : RunError} :
      (propagate a b).run.run s = (.error e, s') → Drains s ((a, b) :: rest) [(a, b)] (.error e) s'
  | step {s s₁ s' : Scheduler} {a b : Nat} {next rest tr : List (Nat × Nat)}
      {r : Except RunError Unit} :
      (propagate a b).run.run s = (.ok next, s₁) → Drains s₁ (next ++ rest) tr r s' →
      Drains s ((a, b) :: rest) ((a, b) :: tr) r s'

/-- The recursive procedure the stack stands for: each edge in order, visiting a fired barrier's
edges first. -/
inductive Visits : Scheduler → List (Nat × Nat) → List (Nat × Nat) → Except RunError Unit →
    Scheduler → Prop
  | nil (s : Scheduler) : Visits s [] [] (.ok ()) s
  | fail {s s' : Scheduler} {a b : Nat} {rest : List (Nat × Nat)} {e : RunError} :
      (propagate a b).run.run s = (.error e, s') → Visits s ((a, b) :: rest) [(a, b)] (.error e) s'
  | abort {s s₁ s' : Scheduler} {a b : Nat} {next rest tr : List (Nat × Nat)} {e : RunError} :
      (propagate a b).run.run s = (.ok next, s₁) → Visits s₁ next tr (.error e) s' →
      Visits s ((a, b) :: rest) ((a, b) :: tr) (.error e) s'
  | cons {s s₁ s₂ s' : Scheduler} {a b : Nat} {next rest tr₁ tr₂ : List (Nat × Nat)}
      {r : Except RunError Unit} :
      (propagate a b).run.run s = (.ok next, s₁) → Visits s₁ next tr₁ (.ok ()) s₂ →
      Visits s₂ rest tr₂ r s' → Visits s ((a, b) :: rest) ((a, b) :: (tr₁ ++ tr₂)) r s'

variable {stack rest tr tr' : List (Nat × Nat)} {r r' : Except RunError Unit} {s'' : Scheduler}

namespace Drains

theorem append {s₁ : Scheduler} {tr₁ tr₂ : List (Nat × Nat)} {r₁ : Except RunError Unit}
    (h₁ : Drains s stack tr₁ r₁ s₁) (hr : r₁ = .ok ()) (h₂ : Drains s₁ rest tr₂ r s') :
    Drains s (stack ++ rest) (tr₁ ++ tr₂) r s' := by
  induction h₁ with
  | done => exact h₂
  | fail _ => cases hr
  | step hp _ ih =>
    rw [List.cons_append, List.cons_append]
    exact .step hp (List.append_assoc _ _ _ ▸ ih hr h₂)

theorem append_error {e : RunError} (h : Drains s stack tr r s') (hr : r = .error e)
    (rest : List (Nat × Nat)) : Drains s (stack ++ rest) tr r s' := by
  induction h with
  | done => cases hr
  | fail hp => exact .fail hp
  | step hp _ ih =>
    rw [List.cons_append]
    exact .step hp (List.append_assoc _ _ _ ▸ ih hr)

theorem unique (h₁ : Drains s stack tr r s') (h₂ : Drains s stack tr' r' s'') :
    tr = tr' ∧ r = r' ∧ s' = s'' := by
  induction h₁ generalizing tr' r' s'' with
  | done => cases h₂; exact ⟨rfl, rfl, rfl⟩
  | fail hp =>
    cases h₂ with
    | fail hp' => rw [hp] at hp'; cases hp'; exact ⟨rfl, rfl, rfl⟩
    | step hp' _ => rw [hp] at hp'; cases hp'
  | step hp _ ih =>
    cases h₂ with
    | fail hp' => rw [hp] at hp'; cases hp'
    | step hp' h' =>
      rw [hp] at hp'
      cases hp'
      obtain ⟨rfl, rfl, rfl⟩ := ih h'
      exact ⟨rfl, rfl, rfl⟩

theorem length_le (h : Drains s stack tr r s') : tr.length ≤ stack.length + s.store.armedEdges := by
  induction h with
  | done => simp
  | fail _ =>
    simp only [List.length_cons, List.length_nil]
    omega
  | step hp _ ih =>
    have hm := armedEdges_propagate hp
    simp only [List.length_cons, List.length_append] at ih ⊢
    omega

theorem run_drainWith (h : Drains s stack tr r s') {fuel : Nat} (hf : tr.length ≤ fuel) :
    (drainWith fuel stack).run.run s = (r, s') := by
  induction h generalizing fuel with
  | done => exact run_drainWith_nil fuel
  | fail hp =>
    cases fuel with
    | zero => simp at hf
    | succ fuel => rw [run_drainWith_cons, run_bind_error hp]
  | step hp _ ih =>
    cases fuel with
    | zero => simp at hf
    | succ fuel =>
      rw [run_drainWith_cons, run_bind_ok hp]
      exact ih (by simpa using hf)

theorem run_drain (h : Drains s stack tr r s') (hs : s.store.EdgeBound) :
    (drain stack).run.run s = (r, s') := by
  rw [ListScheduling.Run.run_drain]
  exact h.run_drainWith (by have := hs.armedEdges_le; have := h.length_le; omega)

end Drains

theorem exists_drains (s : Scheduler) :
    ∀ stack : List (Nat × Nat), ∃ tr r s', Drains s stack tr r s'
  | [] => ⟨[], _, _, .done s⟩
  | (a, b) :: rest => by
    rcases hp : (propagate a b).run.run s with ⟨_ | next, s₁⟩
    · exact ⟨_, _, _, .fail hp⟩
    · obtain ⟨tr, r, s', hd⟩ := exists_drains s₁ (next ++ rest)
      exact ⟨_, _, _, .step hp hd⟩
termination_by stack => stack.length + s.store.armedEdges
decreasing_by
  have hm := armedEdges_propagate hp
  simp only [List.length_cons, List.length_append]
  omega

theorem Visits.of_append :
    ∀ {stack : List (Nat × Nat)} {s : Scheduler} {tr : List (Nat × Nat)} {r : Except RunError Unit}
      {s' : Scheduler}, Visits s (stack ++ rest) tr r s' →
      (∃ e, r = .error e ∧ Visits s stack tr r s') ∨
        ∃ tr₁ tr₂ s₁, tr = tr₁ ++ tr₂ ∧ Visits s stack tr₁ (.ok ()) s₁ ∧ Visits s₁ rest tr₂ r s'
  | [], s, tr, _, _, h => .inr ⟨[], tr, s, rfl, .nil s, h⟩
  | _ :: stack, _, _, _, _, h => by
    cases h with
    | fail hp => exact .inl ⟨_, rfl, .fail hp⟩
    | abort hp hv => exact .inl ⟨_, rfl, .abort hp hv⟩
    | cons hp hv₁ hv₂ =>
      rcases Visits.of_append hv₂ with ⟨e, rfl, hv⟩ | ⟨t₁, t₂, s₃, rfl, hv, hv'⟩
      · exact .inl ⟨e, rfl, .cons hp hv₁ hv⟩
      · exact .inr ⟨_, t₂, s₃, by simp, .cons hp hv₁ hv, hv'⟩

theorem drains_iff_visits : Drains s stack tr r s' ↔ Visits s stack tr r s' := by
  constructor
  · intro h
    induction h with
    | done s => exact .nil s
    | fail hp => exact .fail hp
    | step hp _ ih =>
      rcases Visits.of_append ih with ⟨e, rfl, hv⟩ | ⟨tr₁, tr₂, s₁, rfl, hv₁, hv₂⟩
      · exact .abort hp hv
      · exact .cons hp hv₁ hv₂
  · intro h
    induction h with
    | nil s => exact .done s
    | fail hp => exact .fail hp
    | abort hp _ ih => exact .step hp (ih.append_error rfl _)
    | cons hp _ _ ih₁ ih₂ => exact .step hp (ih₁.append rfl ih₂)

/-- Readiness spreads depth first. -/
theorem drain_visits_depth_first (hs : s.store.EdgeBound) (stack : List (Nat × Nat)) :
    ∃ tr, tr.length ≤ stack.length + s.store.armedEdges ∧
      Drains s stack tr ((drain stack).run.run s).1 ((drain stack).run.run s).2 ∧
      ∀ tr' r s', Visits s stack tr' r s' ↔ tr' = tr ∧ (r, s') = (drain stack).run.run s := by
  obtain ⟨tr, r, s', hd⟩ := exists_drains s stack
  have hrun := hd.run_drain hs
  refine ⟨tr, hd.length_le, by rw [hrun]; exact hd, fun tr' r' s'' => ⟨fun hv => ?_, ?_⟩⟩
  · obtain ⟨rfl, rfl, rfl⟩ := (drains_iff_visits.2 hv).unique hd
    exact ⟨rfl, hrun.symm⟩
  · rintro ⟨rfl, heq⟩
    rw [hrun, Prod.mk.injEq] at heq
    obtain ⟨rfl, rfl⟩ := heq
    exact drains_iff_visits.1 hd

/-- Two barriers added through the sink, the second waiting on the first: the spreading from the
edge between them. -/
theorem drain_visits_depth_first_chain :
    let s := Call.runAll [.addVertex (.barrier (BarrierNode.new Double.zero)),
      .addVertex (.barrier (BarrierNode.new Double.zero)), .addEdge .barrier .barrier 0 1]
      (Scheduler.new (fun _ => Double.zero) (Store.withLimit 4))
    s.store.EdgeBound ∧ ∃ tr, tr.length ≤ [(0, 1)].length + s.store.armedEdges ∧
      Drains s [(0, 1)] tr ((drain [(0, 1)]).run.run s).1 ((drain [(0, 1)]).run.run s).2 ∧
      ∀ tr' r s', Visits s [(0, 1)] tr' r s' ↔ tr' = tr ∧ (r, s') = (drain [(0, 1)]).run.run s :=
  ⟨(counted_runAll _ _ _).edgeBound, drain_visits_depth_first (counted_runAll _ _ _).edgeBound _⟩

end Run

end ListScheduling
