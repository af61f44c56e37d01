import ListScheduling.Proofs.Constraint.Store

/-!
The releases a unit can still receive.
-/
namespace ListScheduling

theorem sum_map_modify {α : Type} (g : α → Nat) (f : α → α) :
    ∀ (l : List α) (i : Nat),
      ((l.modify i f).map g).sum + (l[i]?.map g).getD 0 = (l.map g).sum + (l[i]?.map (g ∘ f)).getD 0
  | [], _ => by simp
  | a :: l, 0 => by
    simp only [List.modify_zero_cons, List.map_cons, List.sum_cons, List.getElem?_cons_zero,
      Option.map_some, Option.getD_some, Function.comp_apply]
    omega
  | a :: l, i + 1 => by
    have ih := sum_map_modify g f l i
    simp only [List.modify_succ_cons, List.map_cons, List.sum_cons, List.getElem?_cons_succ] at ih ⊢
    omega

/-- A barrier that has not fired: its edges can still release the units they reach. -/
def Slot.isOpen (slot : Slot) : Bool :=
  match slot.node with
  | .barrier b => !b.satisfied
  | _ => false

/-- The edges of a slot into `u` that can still release `u`: those of a barrier not yet
fired. -/
def Slot.openFeeds (slot : Slot) (u : Nat) : Nat := if slot.isOpen then slot.out.count u else 0

namespace Store

/-- The edges into `u` from barriers not yet fired. -/
def openFeeds (st : Store) (u : Nat) : Nat := (st.slots.toList.map (·.openFeeds u)).sum

/-- Whether vertex `i` is a barrier. -/
def isBarrier (st : Store) (i : Nat) : Bool := st.slots[i]?.any (·.node.kind == .barrier)

/-- The edges of a stack that pass a barrier's time on to `u`. -/
def stackFeeds (st : Store) (stack : List (Nat × Nat)) (u : Nat) : Nat :=
  stack.countP fun e => e.2 == u && st.isBarrier e.1

/-- The releases `u` can still receive: the edges into it from barriers not yet fired, and
those of fired barriers still on the stack. -/
def feeds (st : Store) (stack : List (Nat × Nat)) (u : Nat) : Nat :=
  st.openFeeds u + st.stackFeeds stack u

/-- Every edge target is a vertex: an edge is recorded only between two vertices. -/
def Closed (st : Store) : Prop :=
  ∀ (i : Nat) (slot : Slot), st.slots[i]? = some slot → ∀ d ∈ slot.out, d < st.size

variable {st : Store} {u : Nat}

/-! The count of a store, after each change. -/

theorem openFeeds_append (n : Node) : (st.append n).openFeeds u = st.openFeeds u := by
  have hnew : ({ node := n } : Slot).openFeeds u = 0 := by
    unfold Slot.openFeeds
    split <;> simp
  simp [openFeeds, toList_append, hnew]

theorem openFeeds_setNode {i : Nat} {n : Node} {slot : Slot} (hi : st.slots[i]? = some slot) :
    (st.setNode i n).openFeeds u + slot.openFeeds u =
      st.openFeeds u + ({ slot with node := n } : Slot).openFeeds u := by
  have h := sum_map_modify (·.openFeeds u) ({ · with node := n }) st.slots.toList i
  rw [Array.getElem?_toList, hi] at h
  simpa [openFeeds, toList_setNode] using h

theorem openFeeds_setNode_of_isOpen {i : Nat} {n : Node} {slot : Slot}
    (hi : st.slots[i]? = some slot) (ho : ({ slot with node := n } : Slot).isOpen = slot.isOpen) :
    (st.setNode i n).openFeeds u = st.openFeeds u := by
  have h := openFeeds_setNode (u := u) (n := n) hi
  have hs : ({ slot with node := n } : Slot).openFeeds u = slot.openFeeds u := by
    simp only [Slot.openFeeds, ho]
  omega

theorem openFeeds_setNode_fire {i : Nat} {n : Node} {slot : Slot} (hi : st.slots[i]? = some slot)
    (ho : slot.isOpen = true) (hc : ({ slot with node := n } : Slot).isOpen = false) :
    (st.setNode i n).openFeeds u + slot.out.count u = st.openFeeds u := by
  have h := openFeeds_setNode (u := u) (n := n) hi
  simp only [Slot.openFeeds, ho, hc, if_true, Bool.false_eq_true, if_false] at h
  omega

theorem openFeeds_appendEdge {src dst : Nat} {slot : Slot} (hsrc : st.slots[src]? = some slot) :
    (st.appendEdge src dst).openFeeds u =
      st.openFeeds u + if slot.isOpen = true ∧ dst = u then 1 else 0 := by
  have h := sum_map_modify (·.openFeeds u) (fun slot => { slot with out := slot.out.push dst })
    st.slots.toList src
  rw [Array.getElem?_toList, hsrc] at h
  have ho : ({ slot with out := slot.out.push dst } : Slot).isOpen = slot.isOpen := rfl
  have hs : ({ slot with out := slot.out.push dst } : Slot).openFeeds u =
      slot.openFeeds u + if slot.isOpen = true ∧ dst = u then 1 else 0 := by
    simp only [Slot.openFeeds, ho, Array.count_push, beq_iff_eq]
    cases slot.isOpen <;> by_cases hd : dst = u <;> simp [hd]
  have h' : (st.appendEdge src dst).openFeeds u + slot.openFeeds u =
      st.openFeeds u + ({ slot with out := slot.out.push dst } : Slot).openFeeds u := by
    simpa [openFeeds, toList_appendEdge] using h
  omega

theorem openFeeds_eq_zero_of_le (hc : st.Closed) (hu : st.size ≤ u) : st.openFeeds u = 0 := by
  refine List.sum_eq_zero_iff_forall_eq_nat.2 fun k hk => ?_
  obtain ⟨slot, hslot, rfl⟩ := List.mem_map.1 hk
  obtain ⟨i, hi⟩ := List.mem_iff_getElem?.1 hslot
  rw [Array.getElem?_toList] at hi
  unfold Slot.openFeeds
  split
  · exact Array.count_eq_zero.2 fun hm => Nat.lt_irrefl _
      (Nat.lt_of_le_of_lt hu (hc i slot hi u hm))
  · rfl

/-! The kinds of the vertices, which the stack count reads, stay under every change but an append.
-/

theorem isBarrier_setNode {i : Nat} {n : Node}
    (hk : ∀ slot, st.slots[i]? = some slot → n.kind = slot.node.kind) (j : Nat) :
    (st.setNode i n).isBarrier j = st.isBarrier j := by
  unfold isBarrier
  rw [getElem?_setNode]
  split
  · rename_i hij
    subst hij
    cases h : st.slots[i]? with
    | none => rfl
    | some slot => simp [hk slot h]
  · rfl

theorem stackFeeds_congr {st' : Store} (h : ∀ j, st'.isBarrier j = st.isBarrier j)
    (stack : List (Nat × Nat)) (u : Nat) : st'.stackFeeds stack u = st.stackFeeds stack u := by
  simp only [stackFeeds, h]

@[simp] theorem stackFeeds_nil (u : Nat) : st.stackFeeds [] u = 0 := rfl

theorem stackFeeds_cons (e : Nat × Nat) (rest : List (Nat × Nat)) :
    st.stackFeeds (e :: rest) u =
      st.stackFeeds rest u + if e.2 = u ∧ st.isBarrier e.1 = true then 1 else 0 := by
  simp only [stackFeeds, List.countP_cons, Bool.and_eq_true, beq_iff_eq]

theorem stackFeeds_append (l₁ l₂ : List (Nat × Nat)) :
    st.stackFeeds (l₁ ++ l₂) u = st.stackFeeds l₁ u + st.stackFeeds l₂ u := by
  simp only [stackFeeds, List.countP_append]

theorem stackFeeds_outEdges (b : Nat) (out : Array Nat) :
    st.stackFeeds (out.toList.map (b, ·)) u = if st.isBarrier b then out.count u else 0 := by
  rw [stackFeeds, List.countP_map]
  cases hb : st.isBarrier b
  · simp [Function.comp_def, hb]
  · rw [← Array.count_toList, List.count_eq_countP]
    simp [Function.comp_def, hb]

theorem stackFeeds_le_of_sublist {l₁ l₂ : List (Nat × Nat)} (h : l₁.Sublist l₂) :
    st.stackFeeds l₁ u ≤ st.stackFeeds l₂ u :=
  h.countP_le

/-! The count of both, after each change of the store and of the stack. -/

@[simp] theorem feeds_nil (u : Nat) : st.feeds [] u = st.openFeeds u := by
  simp [feeds]

theorem feeds_le_of_sublist {l₁ l₂ : List (Nat × Nat)} (h : l₁.Sublist l₂) :
    st.feeds l₁ u ≤ st.feeds l₂ u :=
  Nat.add_le_add_left (stackFeeds_le_of_sublist h) _

theorem feeds_append (n : Node) : (st.append n).feeds [] u = st.feeds [] u := by
  simp [openFeeds_append]

theorem feeds_appendEdge {src dst : Nat} {slot : Slot} (hsrc : st.slots[src]? = some slot) :
    (st.appendEdge src dst).feeds [] u =
      st.feeds [] u + if slot.isOpen = true ∧ dst = u then 1 else 0 := by
  simp only [feeds_nil, openFeeds_appendEdge hsrc]

theorem feeds_eq_zero_of_le (hc : st.Closed) (hu : st.size ≤ u) : st.feeds [] u = 0 := by
  simp [openFeeds_eq_zero_of_le hc hu]

theorem feeds_setNode {i : Nat} {n : Node} {slot : Slot} (hi : st.slots[i]? = some slot)
    (hk : n.kind = slot.node.kind) (ho : ({ slot with node := n } : Slot).isOpen = slot.isOpen)
    (stack : List (Nat × Nat)) : (st.setNode i n).feeds stack u = st.feeds stack u := by
  have hkind : ∀ slot', st.slots[i]? = some slot' → n.kind = slot'.node.kind := by
    intro slot' h
    rw [hi] at h
    cases h
    exact hk
  rw [feeds, feeds, openFeeds_setNode_of_isOpen hi ho, stackFeeds_congr (isBarrier_setNode hkind)]

theorem feeds_fire {b : Nat} {n : Node} {slot : Slot} (hb : st.slots[b]? = some slot)
    (hk : n.kind = slot.node.kind) (ho : slot.isOpen = true)
    (hc : ({ slot with node := n } : Slot).isOpen = false) (stack : List (Nat × Nat)) :
    (st.setNode b n).feeds (slot.out.toList.map (b, ·) ++ stack) u = st.feeds stack u := by
  have hkind : ∀ slot', st.slots[b]? = some slot' → n.kind = slot'.node.kind := by
    intro slot' h
    rw [hb] at h
    cases h
    exact hk
  have hbar : st.isBarrier b = true := by
    unfold Slot.isOpen at ho
    split at ho <;> simp_all [isBarrier, Node.kind]
  have hopen := openFeeds_setNode_fire (u := u) hb ho hc
  rw [feeds, feeds, stackFeeds_append, stackFeeds_outEdges, isBarrier_setNode hkind, hbar, if_pos rfl,
    stackFeeds_congr (isBarrier_setNode hkind)]
  omega

theorem feeds_cons_of_isBarrier {a b : Nat} (ha : st.isBarrier a = true) (rest : List (Nat × Nat)) :
    st.feeds ((a, b) :: rest) b = st.feeds rest b + 1 := by
  rw [feeds, feeds, stackFeeds_cons, if_pos ⟨rfl, ha⟩]
  omega

/-! Edges stay between vertices. -/

namespace Closed

theorem append (hc : st.Closed) (n : Node) : (st.append n).Closed := by
  intro i slot h d hd
  rw [getElem?_append] at h
  rw [size_append]
  split at h
  · cases h
    simp at hd
  · exact Nat.lt_succ_of_lt (hc i slot h d hd)

theorem setNode (hc : st.Closed) (i : Nat) (n : Node) : (st.setNode i n).Closed := by
  intro j slot h d hd
  rw [getElem?_setNode] at h
  rw [size_setNode]
  split at h
  · obtain ⟨slot₀, h₀, rfl⟩ := Option.map_eq_some_iff.1 h
    exact hc j slot₀ h₀ d hd
  · exact hc j slot h d hd

theorem appendEdge (hc : st.Closed) (src : Nat) {dst : Nat} (hd : dst < st.size) :
    (st.appendEdge src dst).Closed := by
  intro j slot h d hdm
  rw [getElem?_appendEdge] at h
  rw [size_appendEdge]
  split at h
  · obtain ⟨slot₀, h₀, rfl⟩ := Option.map_eq_some_iff.1 h
    rcases Array.mem_push.1 hdm with hdm | rfl
    · exact hc j slot₀ h₀ d hdm
    · exact hd
  · exact hc j slot h d hdm

end Closed

end Store

end ListScheduling
