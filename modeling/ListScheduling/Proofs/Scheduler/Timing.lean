import ListScheduling.Proofs.Double.Addition
import ListScheduling.Proofs.Scheduler.Steps

/-!
The times a constraint graph holds, and how they move.
-/
namespace ListScheduling

namespace Double

theorem isFinite_of_isValidTime {x : Double} (h : x.isValidTime = true) : x.isFinite = true := by
  simp only [isValidTime, Bool.and_eq_true] at h
  exact h.1

theorem units_nonneg_of_isValidTime {x : Double} (h : x.isValidTime = true) : 0 ≤ x.units := by
  simp only [isValidTime, Bool.and_eq_true, Bool.not_eq_true'] at h
  have hle := le_of_not_lt (not_isNaN_of_isFinite isFinite_zero) (not_isNaN_of_isFinite h.1) h.2
  rwa [le_iff_units isFinite_zero h.1, units_zero] at hle

theorem le_add_of_isValidTime {e x : Double} (he : e.isValidTime = true) (hx : x.isNaN = false) :
    x.le (e + x) :=
  le_add_of_nonneg (isFinite_of_isValidTime he) (units_nonneg_of_isValidTime he) hx

end Double

open Double

namespace Timing

@[simp] theorem advance_ready (tm : Timing) (t : Double) :
    (tm.advance t).ready = Double.maxNum tm.ready t := rfl

theorem advance_finish_of_eq {tm : Timing} (h : tm.finish = tm.ready) (t : Double) :
    (tm.advance t).finish = (tm.advance t).ready := by
  simp only [advance, h, maxNum_maxNum_self]

/-- Neither time of `tm` is above the same time of `tm'`. -/
def Advances (tm tm' : Timing) : Prop := tm.ready.le tm'.ready ∧ tm.finish.le tm'.finish

theorem Advances.trans {tm₁ tm₂ tm₃ : Timing} (h₁ : tm₁.Advances tm₂) (h₂ : tm₂.Advances tm₃) :
    tm₁.Advances tm₃ :=
  ⟨le_trans h₁.1 h₂.1, le_trans h₁.2 h₂.2⟩

theorem advances_of_eq {tm tm' : Timing} (hf : tm.finish = tm.ready) (hr : tm'.ready = tm.ready)
    (hf' : tm'.finish = tm.ready) (hn : tm.ready.isNaN = false) : tm.Advances tm' := by
  unfold Advances
  rw [hf, hr, hf']
  exact ⟨le_refl_of_not_isNaN hn, le_refl_of_not_isNaN hn⟩

theorem advances_advance {tm : Timing} (h : tm.finish = tm.ready) (hr : tm.ready.isNaN = false)
    (t : Double) : tm.Advances (tm.advance t) := by
  have hle := le_maxNum_left t hr
  refine ⟨hle, ?_⟩
  rw [h, advance_finish_of_eq h]
  exact hle

end Timing

/-- The times a vertex holds. -/
def Node.times : Node → List Double
  | .root t => [t]
  | .processor p => [p.ready]
  | .unit u => [u.timing.ready, u.timing.finish]
  | .barrier b => [b.timing.ready, b.timing.finish]

/-- The times of a vertex in a run from a root at time `r`. -/
def Node.Timed (r : Double) (n : Node) : Prop :=
  (∀ t ∈ n.times, t.isNaN = false ∧ r.le t = true) ∧
    match n with
    | .unit u =>
      if u.isScheduled then
        u.timing.finish = u.timing.ready + u.execTime ∧ u.timing.ready.le u.timing.finish = true
      else u.timing.finish = u.timing.ready
    | .barrier b => b.timing.finish = b.timing.ready
    | _ => True

/-- What the steps keep of a vertex in a run from a root at time `r`. -/
def Node.Sound (r : Double) : Node → Prop
  | .root t => r.le t
  | .processor p => r.le p.ready
  | .unit u => u.execTime.isValidTime ∧ r.le u.timing.ready ∧
      u.timing.finish = if u.isScheduled then u.execTime + u.timing.ready else u.timing.ready
  | .barrier b => r.le b.timing.ready ∧ b.timing.finish = b.timing.ready ∧
      (b.satisfied → b.waiting = 0)

/-- How the vertex at one index moves from one state to a later one: a root or processor node
keeps its time, and a unit or barrier advances its timing. -/
def Node.Advances : Node → Node → Prop
  | .root t, .root t' => t' = t
  | .processor p, .processor p' => p'.ready = p.ready
  | .unit u, .unit u' => u.timing.Advances u'.timing
  | .barrier b, .barrier b' => b.timing.Advances b'.timing
  | _, _ => False

namespace Node

variable {r : Double}

theorem le_placed_finish {u : UnitNode} (hx : u.execTime.isValidTime = true)
    (hr : u.timing.ready.isNaN = false) : u.timing.ready.le (u.execTime + u.timing.ready) :=
  le_add_of_isValidTime hx hr

theorem Sound.timed : ∀ {n : Node}, n.Sound r → n.Timed r
  | .root t, h => ⟨by simpa [times] using ⟨isNaN_eq_false_of_le_right h, h⟩, trivial⟩
  | .processor p, h => ⟨by simpa [times] using ⟨isNaN_eq_false_of_le_right h, h⟩, trivial⟩
  | .unit u, ⟨hx, hr, hf⟩ => by
    have hn := isNaN_eq_false_of_le_right hr
    cases hs : u.isScheduled
    · rw [hs] at hf
      simp only [Bool.false_eq_true, if_false] at hf
      refine ⟨?_, by simp only [hs, Bool.false_eq_true, if_false]; exact hf⟩
      simpa [times, hf] using ⟨hn, hr⟩
    · rw [hs] at hf
      simp only [if_true] at hf
      have hle := le_placed_finish hx hn
      refine ⟨?_, ?_⟩
      · simpa [times, hf] using ⟨⟨hn, hr⟩, isNaN_eq_false_of_le_right hle, le_trans hr hle⟩
      · simp only [hs, if_true]
        exact ⟨hf.trans (add_comm_of_isNaN (.inr hn)), hf ▸ hle⟩
  | .barrier b, ⟨hr, hf, _⟩ =>
    ⟨by simpa [times, hf] using ⟨isNaN_eq_false_of_le_right hr, hr⟩, hf⟩

theorem Advances.refl {n : Node} (h : n.Timed r) : n.Advances n := by
  have ht := h.1
  cases n with
  | root t => rfl
  | processor p => rfl
  | unit u =>
    simp only [times, List.mem_cons, List.not_mem_nil, or_false, forall_eq_or_imp, forall_eq] at ht
    exact ⟨le_refl_of_not_isNaN ht.1.1, le_refl_of_not_isNaN ht.2.1⟩
  | barrier b =>
    simp only [times, List.mem_cons, List.not_mem_nil, or_false, forall_eq_or_imp, forall_eq] at ht
    exact ⟨le_refl_of_not_isNaN ht.1.1, le_refl_of_not_isNaN ht.2.1⟩

theorem Advances.trans : ∀ {n₁ n₂ n₃ : Node}, n₁.Advances n₂ → n₂.Advances n₃ → n₁.Advances n₃
  | .root _, .root _, .root _, h₁, h₂ => Eq.trans h₂ h₁
  | .processor _, .processor _, .processor _, h₁, h₂ => Eq.trans h₂ h₁
  | .unit _, .unit _, .unit _, h₁, h₂ => Timing.Advances.trans h₁ h₂
  | .barrier _, .barrier _, .barrier _, h₁, h₂ => Timing.Advances.trans h₁ h₂

/-! Each rewrite of a vertex that a step makes keeps it sound and advances it. -/

theorem Sound.occupy {p : ProcessorNode} (h : (Node.processor p).Sound r) :
    (Node.processor { p with occupied := true }).Sound r ∧
      (Node.processor p).Advances (.processor { p with occupied := true }) :=
  ⟨h, rfl⟩

theorem Sound.addInput {bar : BarrierNode} (h : (Node.barrier bar).Sound r)
    (hs : bar.satisfied = false) :
    (Node.barrier bar.addInput).Sound r ∧ (Node.barrier bar).Advances (.barrier bar.addInput) := by
  obtain ⟨hr, hf, -⟩ := h
  refine ⟨⟨hr, hf, fun h' => absurd h' (by simp [BarrierNode.addInput, hs])⟩, ?_⟩
  exact Timing.advances_of_eq hf rfl hf (isNaN_eq_false_of_le_right hr)

theorem Sound.raise {bar : BarrierNode} (h : (Node.barrier bar).Sound r) (hs : bar.satisfied = false)
    (w : Nat) (t : Double) :
    (Node.barrier { bar with waiting := w, timing := bar.timing.advance t }).Sound r ∧
      (Node.barrier bar).Advances (.barrier { bar with waiting := w, timing := bar.timing.advance t }) := by
  obtain ⟨hr, hf, -⟩ := h
  have hn := isNaN_eq_false_of_le_right hr
  refine ⟨⟨le_trans hr (le_maxNum_left t hn), Timing.advance_finish_of_eq hf t, ?_⟩,
    Timing.advances_advance hf hn t⟩
  intro h'
  simp [hs] at h'

theorem Sound.fire {b : BarrierNode} (h : (Node.barrier b).Sound r) (hw : b.waiting = 0) :
    (Node.barrier b.fire).Sound r ∧ (Node.barrier b).Advances (.barrier b.fire) := by
  obtain ⟨hr, hf, -⟩ := h
  exact ⟨⟨hr, rfl, fun _ => hw⟩, Timing.advances_of_eq hf rfl rfl (isNaN_eq_false_of_le_right hr)⟩

theorem Sound.raiseUnit {un : UnitNode} (h : (Node.unit un).Sound r) (hs : un.isScheduled = false)
    (t : Double) :
    (Node.unit { un with timing := un.timing.advance t }).Sound r ∧
      (Node.unit un).Advances (.unit { un with timing := un.timing.advance t }) := by
  obtain ⟨hx, hr, hf⟩ := h
  rw [hs] at hf
  simp only [Bool.false_eq_true, if_false] at hf
  have hn := isNaN_eq_false_of_le_right hr
  refine ⟨⟨hx, le_trans hr (le_maxNum_left t hn), ?_⟩, Timing.advances_advance hf hn t⟩
  have hs' : ({ un with timing := un.timing.advance t } : UnitNode).isScheduled = false := hs
  rw [hs', if_neg Bool.false_ne_true]
  exact Timing.advance_finish_of_eq hf t

theorem Sound.place {un : UnitNode} (h : (Node.unit un).Sound r) (hs : un.isScheduled = false)
    (node : ProcessorNode) :
    (Node.unit (Run.placedUnit un node)).Sound r ∧
      (Node.unit un).Advances (.unit (Run.placedUnit un node)) ∧
      (Node.processor ⟨node.processor, (Run.placedUnit un node).timing.finish, false⟩).Sound r := by
  obtain ⟨hx, hr, hf⟩ := h
  rw [hs] at hf
  simp only [Bool.false_eq_true, if_false] at hf
  have hn := isNaN_eq_false_of_le_right hr
  have hready : un.timing.ready.le (un.timing.advance node.ready).ready := le_maxNum_left _ hn
  have hfin : (un.timing.advance node.ready).ready.le
      (un.execTime + (un.timing.advance node.ready).ready) :=
    le_add_of_isValidTime hx (isNaN_eq_false_of_le_right hready)
  refine ⟨⟨hx, le_trans hr hready, ?_⟩, ⟨hready, ?_⟩, le_trans (le_trans hr hready) hfin⟩
  · simp [Run.placedUnit, UnitNode.isScheduled]
  · show un.timing.finish.le (un.execTime + (un.timing.advance node.ready).ready)
    rw [hf]
    exact le_trans hready hfin

end Node

namespace Store

/-- Every vertex of `st` is in `st'` at its index, with its times advanced. -/
def Advances (st st' : Store) : Prop :=
  ∀ (i : Nat) (slot : Slot), st.slots[i]? = some slot →
    ∃ slot', st'.slots[i]? = some slot' ∧ slot.node.Advances slot'.node

/-- Every vertex of the store is timed after `r`. -/
def Timed (r : Double) (st : Store) : Prop :=
  ∀ (i : Nat) (slot : Slot), st.slots[i]? = some slot → slot.node.Timed r

namespace Advances

variable {r : Double} {st st₁ st₂ : Store}

theorem trans (h₁ : st.Advances st₁) (h₂ : st₁.Advances st₂) : st.Advances st₂ := by
  intro i slot h
  obtain ⟨slot₁, h₁', ha₁⟩ := h₁ i slot h
  obtain ⟨slot₂, h₂', ha₂⟩ := h₂ i slot₁ h₁'
  exact ⟨slot₂, h₂', ha₁.trans ha₂⟩

theorem of_nodes (ht : st.Timed r)
    (h : ∀ (i : Nat) (slot : Slot), st.slots[i]? = some slot →
      ∃ slot', st₁.slots[i]? = some slot' ∧ slot'.node = slot.node) :
    st.Advances st₁ := by
  intro i slot hi
  obtain ⟨slot', h', hn⟩ := h i slot hi
  refine ⟨slot', h', ?_⟩
  rw [hn]
  exact Node.Advances.refl (ht i slot hi)

theorem refl (ht : st.Timed r) : st.Advances st :=
  of_nodes ht fun _ slot h => ⟨slot, h, rfl⟩

theorem append (ht : st.Timed r) (n : Node) : st.Advances (st.append n) :=
  of_nodes ht fun i slot h => by
    have hi : i ≠ st.size := Nat.ne_of_lt (Array.getElem?_eq_some_iff.1 h).1
    exact ⟨slot, by rw [getElem?_append, if_neg hi, h], rfl⟩

theorem appendEdge (ht : st.Timed r) (src dst : Nat) : st.Advances (st.appendEdge src dst) :=
  of_nodes ht fun i slot h => by
    rw [getElem?_appendEdge]
    split
    · exact ⟨{ slot with out := slot.out.push dst }, by rw [h]; rfl, rfl⟩
    · exact ⟨slot, h, rfl⟩

theorem setNode (ht : st.Timed r) {i : Nat} {slot : Slot} (hi : st.slots[i]? = some slot)
    {n : Node} (hn : slot.node.Advances n) : st.Advances (st.setNode i n) := by
  intro j slot' h
  rw [getElem?_setNode]
  split
  · rename_i hij
    subst hij
    rw [hi] at h
    cases h
    exact ⟨{ slot with node := n }, by rw [hi]; rfl, hn⟩
  · exact ⟨slot', h, Node.Advances.refl (ht j slot' h)⟩

end Advances

end Store

end ListScheduling
