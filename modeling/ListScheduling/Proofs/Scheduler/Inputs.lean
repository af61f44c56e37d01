import ListScheduling.Proofs.Scheduler.Counts

/-!
The inputs a vertex still awaits, and the free nodes of each processor.
-/
namespace ListScheduling

namespace Slot

/-- A barrier that has not fired or a unit that is not placed: its edges are still to be
driven. -/
def isPending (slot : Slot) : Bool :=
  match slot.node with
  | .barrier b => !b.satisfied
  | .unit u => !u.isScheduled
  | _ => false

/-- The edges of a slot into `x` that are still to be driven. -/
def pendingInputs (slot : Slot) (x : Nat) : Nat := if slot.isPending then slot.out.count x else 0

/-- Whether the slot is a free node of processor `k`. -/
def isFree (slot : Slot) (k : Nat) : Bool :=
  match slot.node with
  | .processor p => !p.occupied && p.processor == k
  | _ => false

end Slot

namespace Store

/-- The edges into `x` from pending vertices. -/
def pendingInputs (st : Store) (x : Nat) : Nat := st.total (·.pendingInputs x)

/-- The inputs `x` still awaits: the edges into it from pending vertices, and those on the
stack. -/
def inputs (st : Store) (stack : List (Nat × Nat)) (x : Nat) : Nat :=
  st.pendingInputs x + stack.countP (·.2 == x)

/-- The free nodes of processor `k`. -/
def freeCount (st : Store) (k : Nat) : Nat := st.total fun slot => (slot.isFree k).toNat

variable {st : Store} {x : Nat} {stack : List (Nat × Nat)}

/-! The inputs, after each change of the store. -/

theorem inputs_append (n : Node) : (st.append n).inputs stack x = st.inputs stack x := by
  simp [inputs, pendingInputs, total_append, Slot.pendingInputs]

theorem inputs_appendEdge {src dst : Nat} {slot : Slot} (h : st.slots[src]? = some slot) :
    (st.appendEdge src dst).inputs stack x =
      st.inputs stack x + if slot.isPending = true ∧ dst = x then 1 else 0 := by
  have ht := total_appendEdge (·.pendingInputs x) h dst
  have hs : ({ slot with out := slot.out.push dst } : Slot).pendingInputs x =
      slot.pendingInputs x + if slot.isPending = true ∧ dst = x then 1 else 0 := by
    have hp : ({ slot with out := slot.out.push dst } : Slot).isPending = slot.isPending := rfl
    simp only [Slot.pendingInputs, hp, Array.count_push, beq_iff_eq]
    cases slot.isPending <;> by_cases hd : dst = x <;> simp [hd]
  simp only [inputs, pendingInputs] at ht ⊢
  omega

theorem inputs_setNode {i : Nat} {slot : Slot} (h : st.slots[i]? = some slot) {n : Node}
    (hp : ({ slot with node := n } : Slot).isPending = slot.isPending) :
    (st.setNode i n).inputs stack x = st.inputs stack x := by
  have ht := total_setNode (·.pendingInputs x) h n
  have hs : ({ slot with node := n } : Slot).pendingInputs x = slot.pendingInputs x := by
    simp only [Slot.pendingInputs, hp]
  simp only [inputs, pendingInputs] at ht ⊢
  omega

theorem inputs_settle {i : Nat} {slot : Slot} (h : st.slots[i]? = some slot) {n : Node}
    (hp : slot.isPending = true) (hn : ({ slot with node := n } : Slot).isPending = false) :
    (st.setNode i n).inputs (slot.out.toList.map (i, ·) ++ stack) x = st.inputs stack x := by
  have ht := total_setNode (·.pendingInputs x) h n
  have hm : (slot.out.toList.map (i, ·)).countP (·.2 == x) = slot.out.count x := by
    rw [List.countP_map, ← Array.count_toList, List.count_eq_countP]
    rfl
  have h₁ : slot.pendingInputs x = slot.out.count x := by simp [Slot.pendingInputs, hp]
  have h₂ : ({ slot with node := n } : Slot).pendingInputs x = 0 := by simp [Slot.pendingInputs, hn]
  rw [h₁, h₂] at ht
  simp only [inputs, pendingInputs, List.countP_append, hm]
  omega

theorem pendingInputs_eq_zero_of_le (hc : st.Closed) (hx : st.size ≤ x) : st.pendingInputs x = 0 := by
  refine List.sum_eq_zero_iff_forall_eq_nat.2 fun k hk => ?_
  obtain ⟨slot, hslot, rfl⟩ := List.mem_map.1 hk
  obtain ⟨i, hi⟩ := List.mem_iff_getElem?.1 hslot
  rw [Array.getElem?_toList] at hi
  unfold Slot.pendingInputs
  split
  · exact Array.count_eq_zero.2 fun hm => Nat.lt_irrefl _
      (Nat.lt_of_le_of_lt hx (hc i slot hi x hm))
  · rfl

/-! The inputs on the stack. -/

theorem inputs_cons (e : Nat × Nat) (rest : List (Nat × Nat)) :
    st.inputs (e :: rest) x = st.inputs rest x + if e.2 = x then 1 else 0 := by
  simp only [inputs, List.countP_cons, beq_iff_eq]
  omega

/-! The free nodes, after each change of the store. -/

variable {k : Nat}

theorem freeCount_append (n : Node) :
    (st.append n).freeCount k = st.freeCount k + (({ node := n } : Slot).isFree k).toNat :=
  total_append _ n

theorem freeCount_appendEdge {src : Nat} {slot : Slot} (h : st.slots[src]? = some slot) (dst : Nat) :
    (st.appendEdge src dst).freeCount k = st.freeCount k := by
  have ht := total_appendEdge (fun slot => (slot.isFree k).toNat) h dst
  exact Nat.add_right_cancel ht

theorem freeCount_setNode {i : Nat} {slot : Slot} (h : st.slots[i]? = some slot) (n : Node) :
    (st.setNode i n).freeCount k + (slot.isFree k).toNat =
      st.freeCount k + (({ slot with node := n } : Slot).isFree k).toNat :=
  total_setNode _ h n

theorem exists_free_of_freeCount (h : 0 < st.freeCount k) :
    ∃ (i : Nat) (slot : Slot) (p : ProcessorNode), st.slots[i]? = some slot ∧
      slot.node = .processor p ∧ p.occupied = false := by
  obtain ⟨w, hw, hpos⟩ : ∃ w ∈ st.slots.toList.map fun slot => (slot.isFree k).toNat, w ≠ 0 := by
    by_contra hne
    push Not at hne
    have h0 := List.sum_eq_zero_iff_forall_eq_nat.2 hne
    simp only [freeCount, total] at h
    omega
  obtain ⟨slot, hslot, rfl⟩ := List.mem_map.1 hw
  obtain ⟨i, hi⟩ := List.mem_iff_getElem?.1 hslot
  rw [Array.getElem?_toList] at hi
  unfold Slot.isFree at hpos
  split at hpos
  · rename_i p hp
    refine ⟨i, slot, p, hi, hp, ?_⟩
    cases ho : p.occupied <;> simp_all
  · simp at hpos

end Store

end ListScheduling
