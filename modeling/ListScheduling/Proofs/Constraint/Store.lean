import Mathlib
import ListScheduling.Constraint.Store

/-!
Reading a store after it changed: one equation per way of changing it, for the slot at every index,
and the typed reads of a slot whose contents are known.
-/
namespace ListScheduling.Store

variable (s : Store)

@[simp] theorem size_append (n : Node) : (s.append n).size = s.size + 1 := by
  simp [append, size]

@[simp] theorem size_setNode (i : Nat) (n : Node) : (s.setNode i n).size = s.size := by
  simp [setNode, size]

@[simp] theorem size_appendEdge (src dst : Nat) : (s.appendEdge src dst).size = s.size := by
  simp [appendEdge, size]

@[simp] theorem numEdges_append (n : Node) : (s.append n).numEdges = s.numEdges := rfl

@[simp] theorem numEdges_setNode (i : Nat) (n : Node) : (s.setNode i n).numEdges = s.numEdges :=
  rfl

@[simp] theorem numEdges_appendEdge (src dst : Nat) :
    (s.appendEdge src dst).numEdges = s.numEdges + 1 := rfl

@[simp] theorem limit_append (n : Node) : (s.append n).limit = s.limit := rfl

@[simp] theorem limit_setNode (i : Nat) (n : Node) : (s.setNode i n).limit = s.limit := rfl

@[simp] theorem limit_appendEdge (src dst : Nat) : (s.appendEdge src dst).limit = s.limit := rfl

theorem getElem?_append (n : Node) (i : Nat) :
    (s.append n).slots[i]? = if i = s.size then some { node := n } else s.slots[i]? := by
  simp only [append, size, Array.getElem?_push]
  rfl

theorem getElem?_setNode (i j : Nat) (n : Node) :
    (s.setNode i n).slots[j]? =
      if i = j then (s.slots[j]?).map ({ · with node := n }) else s.slots[j]? := by
  simp only [setNode, Array.getElem?_modify]

theorem getElem?_appendEdge (src dst j : Nat) :
    (s.appendEdge src dst).slots[j]? =
      if src = j then (s.slots[j]?).map (fun slot => { slot with out := slot.out.push dst })
      else s.slots[j]? := by
  simp only [appendEdge, Array.getElem?_modify]

theorem toList_append (n : Node) : (s.append n).slots.toList = s.slots.toList ++ [{ node := n }] :=
  Array.toList_push

theorem toList_setNode (i : Nat) (n : Node) :
    (s.setNode i n).slots.toList = s.slots.toList.modify i ({ · with node := n }) :=
  Array.toList_modify

theorem toList_appendEdge (src dst : Nat) :
    (s.appendEdge src dst).slots.toList =
      s.slots.toList.modify src (fun slot => { slot with out := slot.out.push dst }) :=
  Array.toList_modify

/-! No vertex holds more edges than the store counts: the spreading of readiness relies on it for
its bound. -/

/-- Every vertex holds at most as many edges as the store has counted. -/
def EdgeBound (s : Store) : Prop := ∀ slot ∈ s.slots.toList, slot.out.size ≤ s.numEdges

namespace EdgeBound

variable {s}

theorem append (h : s.EdgeBound) (n : Node) : (s.append n).EdgeBound := by
  intro slot hslot
  rw [toList_append, List.mem_append, List.mem_singleton] at hslot
  rcases hslot with hslot | rfl
  · exact h slot hslot
  · exact Nat.zero_le _

theorem setNode (h : s.EdgeBound) (i : Nat) (n : Node) : (s.setNode i n).EdgeBound := by
  intro slot hslot
  rw [toList_setNode] at hslot
  obtain ⟨j, hj, rfl⟩ := List.getElem_of_mem hslot
  have hj' : j < s.slots.toList.length := by simpa using hj
  rw [List.getElem_modify]
  split
  · exact h s.slots.toList[j] (List.getElem_mem hj')
  · exact h _ (List.getElem_mem hj')

theorem appendEdge (h : s.EdgeBound) (src dst : Nat) : (s.appendEdge src dst).EdgeBound := by
  intro slot hslot
  rw [toList_appendEdge] at hslot
  obtain ⟨j, hj, rfl⟩ := List.getElem_of_mem hslot
  have hj' : j < s.slots.toList.length := by simpa using hj
  rw [List.getElem_modify, numEdges_appendEdge]
  split
  · simpa only [Array.size_push, Nat.add_le_add_iff_right] using h _ (List.getElem_mem hj')
  · exact Nat.le_succ_of_le (h _ (List.getElem_mem hj'))

theorem out_size_le (h : s.EdgeBound) {i : Nat} {slot : Slot} (hi : s.slots[i]? = some slot) :
    slot.out.size ≤ s.numEdges :=
  h slot (List.mem_of_getElem? (by rw [Array.getElem?_toList]; exact hi))

end EdgeBound

section Reads

variable {s} {i : Nat} {out : Array Nat}

theorem get_eq {slot : Slot} (h : s.slots[i]? = some slot) : s.get i = .ok slot.node := by
  simp [get, h]

theorem get_eq_error (h : s.slots[i]? = none) : s.get i = .error (.unknownVertex i) := by
  simp [get, h]

theorem kindAt_eq_error (h : s.slots[i]? = none) : s.kindAt i = .error (.unknownVertex i) := by
  rw [kindAt, get_eq_error h]
  rfl

theorem kindAt_eq {slot : Slot} (h : s.slots[i]? = some slot) :
    s.kindAt i = .ok slot.node.kind := by
  rw [kindAt, get_eq h]
  rfl

theorem rootAt_eq {t : Double} (h : s.slots[i]? = some ⟨.root t, out⟩) : s.rootAt i = .ok t := by
  simp [rootAt, get_eq h]
  rfl

theorem processorAt_eq {p : ProcessorNode} (h : s.slots[i]? = some ⟨.processor p, out⟩) :
    s.processorAt i = .ok p := by
  simp [processorAt, get_eq h]
  rfl

theorem unitAt_eq {u : UnitNode} (h : s.slots[i]? = some ⟨.unit u, out⟩) : s.unitAt i = .ok u := by
  simp [unitAt, get_eq h]
  rfl

theorem barrierAt_eq {b : BarrierNode} (h : s.slots[i]? = some ⟨.barrier b, out⟩) :
    s.barrierAt i = .ok b := by
  simp [barrierAt, get_eq h]
  rfl

theorem outgoing_eq {slot : Slot} (h : s.slots[i]? = some slot) : s.outgoing i = .ok slot.out := by
  simp [outgoing, h]

theorem expect_eq {slot : Slot} {k : NodeKind} (h : s.slots[i]? = some slot)
    (hk : slot.node.kind = k) : s.expect i k = .ok slot.node := by
  simp only [expect, get_eq h]
  show (if slot.node.kind = k then pure slot.node else throw _) = _
  rw [if_pos hk]
  rfl

theorem checkEdge_eq {fk tk : NodeKind} {src dst : Nat} {a b : Slot}
    (ha : s.slots[src]? = some a) (hak : a.node.kind = fk)
    (hb : s.slots[dst]? = some b) (hbk : b.node.kind = tk) :
    s.checkEdge fk tk src dst = .ok () := by
  simp [checkEdge, expect_eq ha hak, expect_eq hb hbk]
  rfl

/-! A typed read that succeeds names the slot it read. -/

theorem slot_of_get {n : Node} (h : s.get i = .ok n) : ∃ out, s.slots[i]? = some ⟨n, out⟩ := by
  unfold get at h
  split at h
  · rename_i slot hs
    cases h
    exact ⟨slot.out, hs⟩
  · cases h

theorem slot_of_kindAt {k : NodeKind} (h : s.kindAt i = .ok k) :
    ∃ slot, s.slots[i]? = some slot ∧ slot.node.kind = k := by
  cases hs : s.slots[i]? with
  | none => rw [kindAt, get_eq_error hs] at h; cases h
  | some slot =>
    rw [kindAt_eq hs] at h
    cases h
    exact ⟨slot, rfl, rfl⟩

theorem slot_of_expect {k : NodeKind} {n : Node} (h : s.expect i k = .ok n) :
    ∃ out, s.slots[i]? = some ⟨n, out⟩ ∧ n.kind = k := by
  cases hs : s.slots[i]? with
  | none =>
    rw [expect, get_eq_error hs] at h
    cases h
  | some slot =>
    by_cases hk : slot.node.kind = k
    · rw [expect_eq hs hk] at h
      cases h
      exact ⟨slot.out, rfl, hk⟩
    · simp only [expect, get_eq hs] at h
      change (if slot.node.kind = k then pure slot.node else throw _) = _ at h
      rw [if_neg hk] at h
      cases h

theorem slots_of_checkEdge {fk tk : NodeKind} {src dst : Nat}
    (h : s.checkEdge fk tk src dst = .ok ()) :
    (∃ a, s.slots[src]? = some a ∧ a.node.kind = fk) ∧
      ∃ b, s.slots[dst]? = some b ∧ b.node.kind = tk := by
  cases ha : s.expect src fk with
  | error e =>
    simp only [checkEdge, ha] at h
    cases h
  | ok na =>
    cases hb : s.expect dst tk with
    | error e =>
      simp only [checkEdge, ha, hb] at h
      cases h
    | ok nb =>
      obtain ⟨oa, hsa, hka⟩ := slot_of_expect ha
      obtain ⟨ob, hsb, hkb⟩ := slot_of_expect hb
      exact ⟨⟨_, hsa, hka⟩, _, hsb, hkb⟩

theorem slot_of_rootAt {t : Double} (h : s.rootAt i = .ok t) : ∃ out, s.slots[i]? = some ⟨.root t, out⟩ := by
  unfold rootAt at h
  cases hg : s.get i with
  | error e => rw [hg] at h; cases h
  | ok n =>
    rw [hg] at h
    cases n <;> cases h
    exact slot_of_get hg

theorem slot_of_processorAt {p : ProcessorNode} (h : s.processorAt i = .ok p) :
    ∃ out, s.slots[i]? = some ⟨.processor p, out⟩ := by
  unfold processorAt at h
  cases hg : s.get i with
  | error e => rw [hg] at h; cases h
  | ok n =>
    rw [hg] at h
    cases n <;> cases h
    exact slot_of_get hg

theorem slot_of_unitAt {u : UnitNode} (h : s.unitAt i = .ok u) :
    ∃ out, s.slots[i]? = some ⟨.unit u, out⟩ := by
  unfold unitAt at h
  cases hg : s.get i with
  | error e => rw [hg] at h; cases h
  | ok n =>
    rw [hg] at h
    cases n <;> cases h
    exact slot_of_get hg

theorem slot_of_barrierAt {b : BarrierNode} (h : s.barrierAt i = .ok b) :
    ∃ out, s.slots[i]? = some ⟨.barrier b, out⟩ := by
  unfold barrierAt at h
  cases hg : s.get i with
  | error e => rw [hg] at h; cases h
  | ok n =>
    rw [hg] at h
    cases n <;> cases h
    exact slot_of_get hg

end Reads

/-! The store never loses a vertex and never changes the kind of one. -/

/-- Every vertex of `st` is in `st'`, at its index and of its kind. -/
def Keeps (st st' : Store) : Prop :=
  ∀ (i : Nat) (slot : Slot), st.slots[i]? = some slot → ∃ slot', st'.slots[i]? = some slot' ∧ slot'.node.kind = slot.node.kind

namespace Keeps

variable {s} {s₁ s₂ : Store}

@[refl] theorem refl (s : Store) : s.Keeps s := fun _ slot h => ⟨slot, h, rfl⟩

theorem trans (h₁ : s.Keeps s₁) (h₂ : s₁.Keeps s₂) : s.Keeps s₂ := by
  intro i slot h
  obtain ⟨slot₁, h₁', hk₁⟩ := h₁ i slot h
  obtain ⟨slot₂, h₂', hk₂⟩ := h₂ i slot₁ h₁'
  exact ⟨slot₂, h₂', hk₂.trans hk₁⟩

theorem append (n : Node) : s.Keeps (s.append n) := by
  intro i slot h
  have hi : i ≠ s.size := Nat.ne_of_lt (Array.getElem?_eq_some_iff.1 h).1
  exact ⟨slot, by rw [getElem?_append, if_neg hi, h], rfl⟩

theorem appendEdge (src dst : Nat) : s.Keeps (s.appendEdge src dst) := by
  intro i slot h
  rw [getElem?_appendEdge]
  split
  · exact ⟨{ slot with out := slot.out.push dst }, by rw [h]; rfl, rfl⟩
  · exact ⟨slot, h, rfl⟩

theorem setNode {n : Node} (hk : ∀ slot, s.slots[i]? = some slot → slot.node.kind = n.kind) :
    s.Keeps (s.setNode i n) := by
  intro j slot h
  rw [getElem?_setNode]
  split
  · rename_i hij
    subst hij
    exact ⟨{ slot with node := n }, by rw [h]; rfl, (hk slot h).symm⟩
  · exact ⟨slot, h, rfl⟩

end Keeps

end ListScheduling.Store
