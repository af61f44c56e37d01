import ListScheduling.Proofs.Scheduler.Balance
import ListScheduling.Proofs.Scheduler.Ends
import ListScheduling.Proofs.Scheduler.Spreading
import ListScheduling.Proofs.Refinement.Dispatch

/-!
The reactions of a balanced run fail only for foreseen reasons.
-/
namespace ListScheduling

/-- The errors that only a graph whose counts have gone wrong can raise. -/
def RunError.isInconsistency : RunError → Bool
  | .barrierUnderflow _ | .barrierAlreadySatisfied _ | .processorAlreadyOccupied _
  | .unitAlreadyScheduled _ | .noAvailableProcessor _ => true
  | .store (.typeMismatch _ _ _) | .store (.unknownVertex _) => true
  | _ => false

/-- An error a run can meet for a reason outside its counts, given the store it leaves: an
overflow only once the store holds as many vertices as its limit allows. -/
def RunError.Expected : RunError → Store → Prop
  | .store (.overflow _), st => st.limit ≤ st.size
  | e, _ => e.isInconsistency = false

/-- Two states of one step with the same landmarks and phase, every vertex of the first still in
the second, of its kind. -/
structure Scheduler.Alike (s s' : Scheduler) : Prop where
  root : s'.root = s.root
  processors : s'.processors = s.processors
  barriers : s'.barriers = s.barriers
  phase : s'.phase = s.phase
  keeps : s.store.Keeps s'.store

/-- What spreading readiness keeps besides the balance: the landmarks and the phase, the
vertices with their kinds, the free nodes, and every vertex for which `P` holds. -/
structure Scheduler.Spread (s s' : Scheduler) (P : Nat → Prop) : Prop extends s.Alike s' where
  size : s'.store.size = s.store.size
  free : ∀ k, s'.store.freeCount k = s.store.freeCount k
  untouched : ∀ x, P x → s'.store.slots[x]? = s.store.slots[x]?

namespace Scheduler

variable {s s₁ s₂ : Scheduler}

theorem Alike.refl (s : Scheduler) : s.Alike s := ⟨rfl, rfl, rfl, rfl, .refl _⟩

theorem Alike.trans (h₁ : s.Alike s₁) (h₂ : s₁.Alike s₂) : s.Alike s₂ :=
  ⟨h₂.root.trans h₁.root, h₂.processors.trans h₁.processors, h₂.barriers.trans h₁.barriers,
    h₂.phase.trans h₁.phase, h₁.keeps.trans h₂.keeps⟩

theorem Alike.of_store {st : Store} (hk : s.store.Keeps st) (stats : Stats) :
    s.Alike { s with store := st, stats } :=
  ⟨rfl, rfl, rfl, rfl, hk⟩

theorem Spread.refl (s : Scheduler) (P : Nat → Prop) : s.Spread s P :=
  ⟨.refl s, rfl, fun _ => rfl, fun _ _ => rfl⟩

theorem Spread.trans {P P₁ P₂ : Nat → Prop} (h₁ : s.Spread s₁ P₁) (h₂ : s₁.Spread s₂ P₂)
    (hP : ∀ x, P x → P₁ x ∧ P₂ x) : s.Spread s₂ P :=
  ⟨h₁.toAlike.trans h₂.toAlike, h₂.size.trans h₁.size, fun k => (h₂.free k).trans (h₁.free k),
    fun x hx => (h₂.untouched x (hP x hx).2).trans (h₁.untouched x (hP x hx).1)⟩

theorem Spread.setNode {i : Nat} {slot : Slot} {n : Node} (hi : s.store.slots[i]? = some slot)
    (hk : n.kind = slot.node.kind) (hp : slot.node.kind ≠ .processor)
    (hst : s₁.store = s.store.setNode i n) (hr : s₁.root = s.root)
    (hps : s₁.processors = s.processors) (hb : s₁.barriers = s.barriers) (hph : s₁.phase = s.phase) :
    s.Spread s₁ (i ≠ ·) :=
  ⟨⟨hr, hps, hb, hph, hst ▸ Store.keeps_setNode_of hi hk⟩, by rw [hst, Store.size_setNode],
    fun _ => by rw [hst, Store.freeCount_setNode_of hi hp (hk ▸ hp)],
    fun x hx => by rw [hst, Store.getElem?_setNode, if_neg hx]⟩

end Scheduler

namespace Store

variable {st : Store}

theorem mem_freeNodes {f : Direct.Free} (h : f ∈ st.freeNodes) :
    ∃ node op, st.slots[f.stamp]? = some ⟨.processor node, op⟩ ∧ node.occupied = false := by
  obtain ⟨⟨⟨n, op⟩, i⟩, hm, hf⟩ := List.mem_filterMap.1 h
  have hi : st.slots[i]? = some ⟨n, op⟩ := by
    rw [← Array.getElem?_toList]
    exact List.mem_zipIdx_iff_getElem?.1 hm
  cases n with
  | processor node =>
    cases ho : node.occupied
    · simp only [ho, Bool.false_eq_true, if_false, Option.some.injEq] at hf
      subst hf
      exact ⟨node, op, hi, ho⟩
    · simp [ho] at hf
  | root _ | unit _ | barrier _ => simp at hf

theorem earliestFree_of_free {i : Nat} {node : ProcessorNode} {op : Array Nat}
    (hi : st.slots[i]? = some ⟨.processor node, op⟩) (ho : node.occupied = false) :
    ∃ p node' op', st.earliestFree = some p ∧ st.slots[p]? = some ⟨.processor node', op'⟩ ∧
      node'.occupied = false := by
  have hne : st.freeNodes ≠ [] := by
    refine List.ne_nil_of_mem (a := ⟨node.processor, node.ready, i⟩)
      (List.mem_filterMap.2 ⟨(⟨.processor node, op⟩, i), ?_, by simp [ho]⟩)
    exact List.mem_zipIdx_iff_getElem?.2 (by rw [Array.getElem?_toList]; exact hi)
  obtain ⟨f, hf⟩ := Option.isSome_iff_exists.1 (Direct.pick_isSome hne)
  obtain ⟨node', op', hs, ho'⟩ := mem_freeNodes (Direct.pick_mem hf)
  exact ⟨f.stamp, node', op', by rw [Direct.Store.earliestFree_eq, hf]; rfl, hs, ho'⟩

variable {p u : Nat} {node : ProcessorNode} {op : Array Nat} {un un' : UnitNode} {ou : Array Nat}

theorem freeCount_assign (hp : st.slots[p]? = some ⟨.processor node, op⟩)
    (hocc : node.occupied = false) (hu : st.slots[u]? = some ⟨.unit un, ou⟩) (hpu : p ≠ u)
    (fin : Double) (k : Nat) :
    ((((st.setNode p (.processor { node with occupied := true })).setNode u (.unit un')).append
      (.processor ⟨node.processor, fin, false⟩)).appendEdge u st.size).freeCount k =
        st.freeCount k := by
  have hu₁ : (st.setNode p (.processor { node with occupied := true })).slots[u]? =
      some ⟨.unit un, ou⟩ := by
    rw [getElem?_setNode, if_neg hpu, hu]
  have hu₂ := getElem?_setNode_self hu₁ (.unit un')
  have hu₃ : (((st.setNode p (.processor { node with occupied := true })).setNode u
      (.unit un')).append (.processor ⟨node.processor, fin, false⟩)).slots[u]? =
        some ⟨.unit un', ou⟩ := by
    rw [getElem?_append, if_neg (by simpa using Nat.ne_of_lt (HasKind.lt_size ⟨_, hu, rfl⟩)), hu₂]
  have h₁ := freeCount_setNode (k := k) hp (.processor { node with occupied := true })
  have h₂ := freeCount_setNode_of (k := k) hu₁ (n := .unit un') (by simp [Node.kind])
    (by simp [Node.kind])
  rw [freeCount_appendEdge hu₃, freeCount_append, h₂]
  simp only [Slot.isFree, hocc, Bool.not_false, Bool.true_and, Bool.not_true, Bool.false_and,
    Bool.toNat_false, Nat.add_zero] at h₁ ⊢
  omega

end Store

namespace Scheduler.Balanced

variable {s s' : Scheduler} {p u : Nat} {node : ProcessorNode} {op : Array Nat} {un : UnitNode}
  {ou : Array Nat}

/-- A free node takes a unit with no input and no queue entry, and the processor's next node follows
it. -/
theorem assign (h : s.Balanced []) (hp : s.store.slots[p]? = some ⟨.processor node, op⟩)
    (hu : s.store.slots[u]? = some ⟨.unit un, ou⟩) (hsch : un.processor = none) (hpu : p ≠ u)
    (hload : s.store.inputs [] u + s.queue.count u = 0)
    (hst : s'.store = (((s.store.setNode p (.processor { node with occupied := true })).setNode u
      (.unit (Run.placedUnit un node))).append
        (.processor ⟨node.processor, (Run.placedUnit un node).timing.finish, false⟩)).appendEdge
          u s.store.size)
    (hq : s'.queue = s.queue) : s'.Balanced ((ou.push s.store.size).toList.map (u, ·)) := by
  have hu₁ : (s.store.setNode p (.processor { node with occupied := true })).slots[u]? =
      some ⟨.unit un, ou⟩ := by
    rw [Store.getElem?_setNode, if_neg hpu, hu]
  have hload₁ : (s.store.setNode p (.processor { node with occupied := true })).inputs [] u +
      s.queue.count u = 0 := by
    rw [Store.inputs_setNode (n := .processor { node with occupied := true }) hp rfl]
    exact hload
  have h₁ : ({ s with store := s.store.setNode p (.processor { node with occupied := true }) } :
      Scheduler).Balanced [] := h.setProcessor hp rfl rfl
  have h₂ : ({ s with store := ((s.store.setNode p (.processor { node with occupied := true })).setNode
      u (.unit (Run.placedUnit un node))) } : Scheduler).Balanced (ou.toList.map (u, ·)) :=
    h₁.place hu₁ (by simp [UnitNode.isScheduled, hsch]) hload₁ rfl rfl rfl
  have h₃ : ({ s with store := (((s.store.setNode p (.processor { node with occupied := true })).setNode
      u (.unit (Run.placedUnit un node))).append
        (.processor ⟨node.processor, (Run.placedUnit un node).timing.finish, false⟩)) } :
      Scheduler).Balanced (ou.toList.map (u, ·)) :=
    h₂.append (fun _ hn => by cases hn) rfl rfl
  have hu₃ : (((s.store.setNode p (.processor { node with occupied := true })).setNode u
      (.unit (Run.placedUnit un node))).append
        (.processor ⟨node.processor, (Run.placedUnit un node).timing.finish, false⟩)).slots[u]? =
          some ⟨.unit (Run.placedUnit un node), ou⟩ := by
    rw [Store.getElem?_append,
      if_neg (by simpa using Nat.ne_of_lt (Store.HasKind.lt_size ⟨_, hu, rfl⟩)),
      Store.getElem?_setNode_self hu₁]
  have hnew : (((s.store.setNode p (.processor { node with occupied := true })).setNode u
      (.unit (Run.placedUnit un node))).append
        (.processor ⟨node.processor, (Run.placedUnit un node).timing.finish, false⟩)).HasKind
          s.store.size .processor :=
    ⟨_, by rw [Store.getElem?_append, if_pos (by simp)], rfl⟩
  have h₄ := h₃.appendOrder hu₃ rfl rfl hnew hst hq
  rwa [Array.toList_push, List.map_append, List.map_singleton]

end Scheduler.Balanced

namespace Run

open Scheduler

variable {s : Scheduler} {a b : Nat} {rest stack : List (Nat × Nat)}

/-! Spreading readiness. -/

/-- Taking an edge from the stack of a balanced run succeeds and leaves the run balanced for the
rest of the stack. -/
theorem balanced_propagate (h : s.Balanced ((a, b) :: rest)) :
    ∃ next s₁, (propagate a b).run.run s = (.ok next, s₁) ∧ s₁.Balanced (next ++ rest) ∧
      s.Spread s₁ (b ≠ ·) ∧
      ∀ x, s₁.store.inputs (next ++ rest) x + (if b = x then 1 else 0) =
        s.store.inputs ((a, b) :: rest) x := by
  obtain ⟨hka, hb⟩ := h.carried (a, b) List.mem_cons_self
  obtain ⟨sa, ha, hka'⟩ : ∃ sa, s.store.slots[a]? = some sa ∧
      (sa.node.kind = .barrier ∨ sa.node.kind = .unit) := by
    rcases hka with ⟨sa, ha, hk⟩ | ⟨sa, ha, hk⟩
    · exact ⟨sa, ha, .inl hk⟩
    · exact ⟨sa, ha, .inr hk⟩
  obtain ⟨⟨nb, ob⟩, hsb⟩ : ∃ sb, s.store.slots[b]? = some sb :=
    ⟨_, Array.getElem?_eq_getElem hb⟩
  -- an edge that passes nothing on only leaves the stack
  have hskip : ¬ s.store.HasKind b .barrier → (propagate a b).run.run s = (.ok [], s) →
      ∃ next s₁, (propagate a b).run.run s = (.ok next, s₁) ∧ s₁.Balanced (next ++ rest) ∧
        s.Spread s₁ (b ≠ ·) ∧
        ∀ x, s₁.store.inputs (next ++ rest) x + (if b = x then 1 else 0) =
          s.store.inputs ((a, b) :: rest) x :=
    fun hnb hrun => ⟨[], s, hrun, h.pop hnb, .refl s _, fun x => by
      rw [List.nil_append, Store.inputs_cons]⟩
  cases nb with
  | barrier bar =>
    obtain ⟨hw, hsat⟩ := h.barrier b bar ob hsb
    have hin : 1 ≤ s.store.inputs ((a, b) :: rest) b := by
      rw [Store.inputs_cons, if_pos rfl]
      omega
    have hopen : bar.satisfied = false := by
      cases hs : bar.satisfied
      · rfl
      · have := hsat hs
        omega
    rw [run_propagate_input ha hka' hsb rfl]
    rcases Nat.lt_or_ge 1 bar.waiting with hw1 | hw1
    · refine ⟨[], _, run_satisfyInput_wait ha hsb hw1, h.wait hsb ?_ (by rfl) rfl rfl,
        .setNode hsb (by rfl) (by simp [Node.kind]) rfl rfl rfl rfl rfl, fun x => ?_⟩
      · show bar.waiting - 1 + 1 = bar.waiting
        omega
      · exact Store.inputs_setNode_cons hsb (by simp [Slot.isPending])
    · have hw1 : bar.waiting = 1 := by omega
      refine ⟨_, _, run_satisfyInput_fire ha hsb hw1,
        (show s.Balanced ([(a, b)] ++ rest) from h).settle hsb (by simp) (by simp [hw1]) hopen
          (by rfl) (by rfl) rfl rfl,
        .setNode hsb (by rfl) (by simp [Node.kind]) rfl rfl rfl rfl rfl, fun x => ?_⟩
      rw [Store.inputs_settle hsb (by simp [Slot.isPending, hopen]) (by simp [Slot.isPending,
        BarrierNode.fire]), Store.inputs_cons]
  | unit un =>
    rcases hka' with hka' | hka'
    · obtain ⟨bar, out, rfl⟩ : ∃ bar out, sa = ⟨.barrier bar, out⟩ := by
        obtain ⟨n, out⟩ := sa
        cases n <;> cases hka'
        exact ⟨_, _, rfl⟩
      refine ⟨[], _, (run_propagate_release ha hka' hsb rfl).trans
          ((run_bind_ok (run_releaseUnit ha hsb)).trans (run_pure _ _)),
        h.release hsb (by rfl) rfl rfl, .setNode hsb (by rfl) (by simp [Node.kind]) rfl rfl rfl rfl rfl,
        fun x => ?_⟩
      exact Store.inputs_setNode_cons hsb rfl
    · refine hskip ?_ ?_
      · rintro ⟨_, hs, hk⟩
        rw [hsb] at hs
        cases hs
        cases hk
      · rw [run_propagate ha hsb, hka']
        rfl
  | root t =>
    refine hskip ?_ ?_
    · rintro ⟨_, hs, hk⟩
      rw [hsb] at hs
      cases hs
      cases hk
    · rw [run_propagate ha hsb]
      rcases hka' with hka' | hka' <;> rw [hka'] <;> rfl
  | processor p =>
    refine hskip ?_ ?_
    · rintro ⟨_, hs, hk⟩
      rw [hsb] at hs
      cases hs
      cases hk
    · rw [run_propagate ha hsb]
      rcases hka' with hka' | hka' <;> rw [hka'] <;> rfl

theorem Drains.balanced {tr : List (Nat × Nat)} {r : Except RunError Unit} {s' : Scheduler}
    (hd : Drains s stack tr r s') (h : s.Balanced stack) :
    r = .ok () ∧ s'.Balanced [] ∧ s.Spread s' (s.store.inputs stack · = 0) := by
  induction hd with
  | done s => exact ⟨rfl, h, .refl s _⟩
  | fail hp =>
    obtain ⟨next, s₁, hrun, -⟩ := balanced_propagate h
    rw [hrun] at hp
    cases hp
  | @step s s₁ s' a b next rest tr r hp _ ih =>
    obtain ⟨next', s₁', hrun, h₁, hs₁, hin⟩ := balanced_propagate h
    rw [hrun] at hp
    cases hp
    obtain ⟨hr, h', hs'⟩ := ih h₁
    refine ⟨hr, h', hs₁.trans hs' fun x hx => ?_⟩
    have hx' := hin x
    rw [hx] at hx'
    have hbx : b ≠ x := by
      rintro rfl
      simp at hx'
    exact ⟨hbx, by simp only [hbx, if_false] at hx'; omega⟩

theorem ends_drain (h : s.Balanced stack) :
    Ends (drain stack) s RunError.Expected fun _ s' =>
      s'.Balanced [] ∧ s.Spread s' (s.store.inputs stack · = 0) := by
  obtain ⟨tr, r, s', hd⟩ := exists_drains s stack
  obtain ⟨rfl, h', hs⟩ := hd.balanced h
  exact Ends.of_ok (hd.run_drain h.bounded) ⟨h', hs⟩

/-! Vertices and edges. -/

theorem ends_addVertex (n : Node) :
    Ends (addVertex n) s RunError.Expected fun i s' => i = s.store.size ∧
      s.store.size < s.store.limit ∧ ∃ stats, s' = { s with store := s.store.append n, stats } := by
  rcases Nat.lt_or_ge s.store.size s.store.limit with h | h
  · exact Ends.of_ok (run_addVertex n h) ⟨rfl, h, _, rfl⟩
  · exact Ends.of_error (run_addVertex_full n h) h

section Edges

variable {fk tk : NodeKind} {src dst : Nat} {E : RunError → Store → Prop}

theorem ends_addEdge {Q : Unit → Scheduler → Prop} (hsrc : s.store.HasKind src fk)
    (hdst : s.store.HasKind dst tk)
    (h : Ends (react fk tk src dst)
      { s with store := s.store.appendEdge src dst, stats.edges := s.stats.edges + 1 } E Q) :
    Ends (addEdge fk tk src dst) s E Q := by
  obtain ⟨a, ha, hka⟩ := hsrc
  obtain ⟨b, hb, hkb⟩ := hdst
  exact Ends.of_run_eq (run_addEdge (Store.checkEdge_eq ha hka hb hkb)) h.guarded

theorem ends_addEdge_inert (hsrc : s.store.HasKind src fk) (hdst : s.store.HasKind dst tk)
    (hr : react fk tk src dst = pure ()) :
    Ends (addEdge fk tk src dst) s E fun _ s' =>
      ∃ stats, s' = { s with store := s.store.appendEdge src dst, stats } :=
  ends_addEdge hsrc hdst (by rw [hr]; exact Ends.pure ⟨_, rfl⟩)

theorem ends_addEdge_input {bar : BarrierNode} {out : Array Nat} (hsrc : s.store.HasKind src fk)
    (hdst : s.store.slots[dst]? = some ⟨.barrier bar, out⟩) (hsat : bar.satisfied = false)
    (hr : react fk .barrier src dst = registerInput dst) :
    Ends (addEdge fk .barrier src dst) s E fun _ s' =>
      ∃ stats, s' = { s with
        store := (s.store.appendEdge src dst).setNode dst (.barrier bar.addInput), stats } := by
  obtain ⟨o', hdst'⟩ := Store.node_appendEdge hdst src dst
  refine ends_addEdge hsrc ⟨_, hdst, rfl⟩ ?_
  rw [hr]
  exact Ends.of_ok (run_registerInput hdst' hsat) ⟨_, rfl⟩

end Edges

/-! The root and the processors take their part. -/

/-- The root fires a barrier not yet satisfied that awaits nothing, and readiness spreads from it; a
barrier that still awaits inputs is refused. -/
theorem ends_releaseFromRoot (h : s.Balanced []) {r : Nat} {t : Double} {ro out : Array Nat}
    {bar : BarrierNode} (hr : s.store.slots[r]? = some ⟨.root t, ro⟩)
    (hb : s.store.slots[b]? = some ⟨.barrier bar, out⟩) (hsat : bar.satisfied = false) :
    Ends (releaseFromRoot r b) s RunError.Expected fun _ s' =>
      s'.Balanced [] ∧ s.Spread s' fun x => b ≠ x ∧ s.store.inputs [] x = 0 := by
  rcases Nat.eq_zero_or_pos bar.waiting with hw | hw
  · -- the barrier fires with no input left, so only its own edges go on the stack
    have hin : ∀ x, (s.store.setNode b (.barrier { bar with timing := bar.timing.advance t }.fire)).inputs
        (out.toList.map (b, ·)) x = s.store.inputs [] x := fun x => by
      rw [← List.append_nil (out.toList.map (b, ·))]
      exact Store.inputs_settle hb (by simp [Slot.isPending, hsat])
        (by simp [Slot.isPending, BarrierNode.fire])
    have h₁ : ({ s with
        store := s.store.setNode b (.barrier { bar with timing := bar.timing.advance t }.fire)
        stats.barriersFired := s.stats.barriersFired + 1 } : Scheduler).Balanced
          (out.toList.map (b, ·) ++ []) :=
      (show s.Balanced ([] ++ []) from h).settle hb (by simp) (by simp [hw]) hsat
        (by simp [BarrierNode.fire, hw]) (by rfl) rfl rfl
    rw [List.append_nil] at h₁
    refine Ends.of_run_eq (run_releaseFromRoot hr hb hsat hw)
      ((ends_drain h₁).mono ?_ fun _ _ he => he)
    rintro _ s' ⟨h', hs'⟩
    have hs₁ : s.Spread { s with
        store := s.store.setNode b (.barrier { bar with timing := bar.timing.advance t }.fire)
        stats.barriersFired := s.stats.barriersFired + 1 } (b ≠ ·) :=
      .setNode hb (by rfl) (by simp [Node.kind]) rfl rfl rfl rfl rfl
    refine ⟨h', hs₁.trans hs' ?_⟩
    rintro x ⟨hbx, hx⟩
    refine ⟨hbx, ?_⟩
    rw [hin]
    exact hx
  · exact Ends.of_error (run_releaseFromRoot_waiting hr hb hsat hw) rfl

section Assign

variable {p u : Nat} {node : ProcessorNode} {op : Array Nat} {un : UnitNode} {ou : Array Nat}

theorem run_assign_full (hp : s.store.slots[p]? = some ⟨.processor node, op⟩)
    (hocc : node.occupied = false) (hu : s.store.slots[u]? = some ⟨.unit un, ou⟩)
    (hsch : un.processor = none) (hpu : p ≠ u) (hfull : s.store.limit ≤ s.store.size) :
    ∃ s', (assign p u).run.run s = (.error (.store (.overflow s.store.limit)), s') ∧
      s'.store.limit ≤ s'.store.size := by
  have hu₁ : (s.store.setNode p (.processor { node with occupied := true })).slots[u]? =
      some ⟨.unit un, ou⟩ := by
    rw [Store.getElem?_setNode, if_neg hpu, hu]
  simp only [assign, run_get_bind, Store.processorAt_eq hp, run_liftStore_ok_bind, hocc,
    Bool.false_eq_true, if_false, run_modifyStore_bind, Store.unitAt_eq hu₁, UnitNode.isScheduled,
    hsch, Option.isSome_none, run_modifyStats_bind]
  rw [run_bind_error (run_addVertex_full _ (by simpa using hfull))]
  exact ⟨_, rfl, by simpa using hfull⟩

/-- A free processor node takes a unit with no input and no queue entry, and readiness spreads
from the unit; the one failure left is a store with no room for the processor's next node. -/
theorem ends_assign (h : s.Balanced []) (hp : s.store.slots[p]? = some ⟨.processor node, op⟩)
    (hocc : node.occupied = false) (hu : s.store.slots[u]? = some ⟨.unit un, ou⟩)
    (hsch : un.processor = none) (hload : s.store.inputs [] u + s.queue.count u = 0) :
    Ends (assign p u) s RunError.Expected fun _ s' =>
      s'.Balanced [] ∧ s.Alike s' ∧ ∀ k, s'.store.freeCount k = s.store.freeCount k := by
  have hpu : p ≠ u := by
    rintro rfl
    rw [hp] at hu
    cases hu
  rcases Nat.lt_or_ge s.store.size s.store.limit with hroom | hfull
  · obtain ⟨stats, hrun⟩ := run_assign hp hocc hu hsch hpu hroom
    have hu₁ : (s.store.setNode p (.processor { node with occupied := true })).slots[u]? =
        some ⟨.unit un, ou⟩ := by
      rw [Store.getElem?_setNode, if_neg hpu, hu]
    have hkeeps : s.store.Keeps ((((s.store.setNode p (.processor { node with occupied := true
        })).setNode u (.unit (placedUnit un node))).append
          (.processor ⟨node.processor, (placedUnit un node).timing.finish, false⟩)).appendEdge
            u s.store.size) :=
      (((Store.keeps_setNode_of (n := .processor { node with occupied := true }) hp rfl).trans
        (Store.keeps_setNode_of (n := .unit (placedUnit un node)) hu₁ rfl)).trans
          (Store.Keeps.append _)).trans (Store.Keeps.appendEdge u s.store.size)
    refine Ends.of_run_eq hrun ((ends_drain ?_).mono ?_ fun _ _ he => he)
    · exact h.assign hp hu hsch hpu hload rfl rfl
    rintro _ s' ⟨h', hs'⟩
    exact ⟨h', (Alike.of_store hkeeps stats).trans hs'.toAlike, fun k =>
      (hs'.free k).trans (Store.freeCount_assign hp hocc hu hpu _ k)⟩
  · obtain ⟨s', hrun, hfull'⟩ := run_assign_full hp hocc hu hsch hpu hfull
    exact Ends.of_error hrun hfull'

end Assign

/-- Each round of list scheduling takes the head of the queue to the earliest free processor node,
which a staffed run with a processor always has; the one failure left is a store with no room. -/
theorem ends_dispatchWith (fuel : Nat) (h : s.Balanced []) (hst : s.Staffed)
    (hpos : 0 < s.processors.size) :
    Ends (dispatchWith fuel) s RunError.Expected fun _ s' =>
      s'.Balanced [] ∧ s'.Staffed ∧ s.Alike s' := by
  induction fuel generalizing s with
  | zero => exact Ends.pure ⟨h, hst, .refl s⟩
  | succ fuel ih =>
    cases hq : s.queue.entries with
    | nil => exact Ends.of_ok (run_dispatchWith_nil fuel hq) ⟨h, hst, .refl s⟩
    | cons e rest =>
      -- the first processor has a free node, so the store has an earliest one
      have hfree : 0 < s.store.freeCount 0 := by
        rw [hst 0, if_pos hpos]
        exact Nat.one_pos
      obtain ⟨i, ⟨n, o⟩, pn, hi, hn, hocc⟩ := Store.exists_free_of_freeCount hfree
      subst hn
      obtain ⟨p, node, op, hp, hpslot, hocc'⟩ := Store.earliestFree_of_free hi hocc
      obtain ⟨⟨nu, ou⟩, hu, hku⟩ := h.queued e (by rw [hq]; exact List.mem_cons_self)
      cases nu with
      | unit un =>
        have hc : s.queue.count e.vertex = ReadyQueue.count ⟨⟨rest⟩, s.queue.nextSeq⟩ e.vertex + 1 := by
          simp [ReadyQueue.count, hq]
        have hbal := h.unit e.vertex un ou hu
        have hsch : un.processor = none := by
          cases hs : un.processor
          · rfl
          · simp [UnitNode.isScheduled, hs] at hbal
            omega
        have h₀ : ({ s with queue := ⟨⟨rest⟩, s.queue.nextSeq⟩ } : Scheduler).Balanced [] :=
          h.dequeue rfl (by rw [hq]; exact List.sublist_cons_self e rest)
        have h₁ : ({ s with
            queue := ⟨⟨rest⟩, s.queue.nextSeq⟩
            store := s.store.appendEdge p e.vertex
            stats.edges := s.stats.edges + 1 } : Scheduler).Balanced [] :=
          h₀.appendEdge hpslot (Array.getElem?_eq_some_iff.1 hu).1
            (fun hpend => absurd hpend (by simp [Slot.isPending])) rfl rfl
        obtain ⟨op₁, hp₁⟩ := Store.node_appendEdge hpslot p e.vertex
        obtain ⟨ou₁, hu₁⟩ := Store.node_appendEdge hu p e.vertex
        have hload : (s.store.appendEdge p e.vertex).inputs [] e.vertex +
            ReadyQueue.count ⟨⟨rest⟩, s.queue.nextSeq⟩ e.vertex = 0 := by
          have hin : (s.store.appendEdge p e.vertex).inputs [] e.vertex = s.store.inputs [] e.vertex +
              if (⟨.processor node, op⟩ : Slot).isPending = true ∧ e.vertex = e.vertex then 1 else 0 :=
            Store.inputs_appendEdge hpslot
          simp only [Slot.isPending, Bool.false_eq_true, false_and, if_false, Nat.add_zero] at hin
          omega
        refine Ends.of_run_eq (run_dispatchWith_cons fuel hq hp) (Ends.bind
          (ends_addEdge ⟨_, hpslot, rfl⟩ ⟨_, hu, rfl⟩ (ends_assign h₁ hp₁ hocc' hu₁ hsch hload))
          ?_)
        rintro _ s₂ ⟨h₂, ha₂, hf₂⟩
        have hf : ∀ k, s₂.store.freeCount k = s.store.freeCount k := fun k =>
          (hf₂ k).trans (Store.freeCount_appendEdge hpslot e.vertex)
        have hst₂ : s₂.Staffed := hst.of_freeCount hf (congrArg Array.size ha₂.processors)
        have hα₁ : s.Alike { s with
            queue := ⟨⟨rest⟩, s.queue.nextSeq⟩
            store := s.store.appendEdge p e.vertex
            stats.edges := s.stats.edges + 1 } :=
          ⟨rfl, rfl, rfl, rfl, Store.Keeps.appendEdge p e.vertex⟩
        have hα : s.Alike s₂ := hα₁.trans ha₂
        refine (ih h₂ hst₂ (hα.processors ▸ hpos)).mono ?_ fun _ _ he => he
        rintro _ s' ⟨h', hs', ha'⟩
        exact ⟨h', hs', hα.trans ha'⟩
      | root _ | processor _ | barrier _ => cases hku

end Run

end ListScheduling
