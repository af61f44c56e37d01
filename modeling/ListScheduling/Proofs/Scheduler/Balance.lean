import ListScheduling.Proofs.Scheduler.Inputs

/-!
The counts a run keeps in balance.
-/
namespace ListScheduling

namespace ReadyQueue

/-- The entries of the queue for vertex `v`. -/
def count (q : ReadyQueue SortedHeap) (v : Nat) : Nat := q.entries.countP (·.vertex == v)

theorem count_push (q : ReadyQueue SortedHeap) (v : Nat) (p : Double) (x : Nat) :
    (q.push v p).count x = q.count x + if v = x then 1 else 0 := by
  simp only [count, entries_push, (SortedHeap.insert_perm _ _).countP_eq, List.countP_cons,
    beq_iff_eq]

end ReadyQueue

namespace Store

variable {st : Store} {i : Nat} {slot : Slot}

theorem HasKind.lt_size {k : NodeKind} (h : st.HasKind i k) : i < st.size := by
  obtain ⟨slot, hs, -⟩ := h
  exact (Array.getElem?_eq_some_iff.1 hs).1

theorem getElem?_setNode_self (h : st.slots[i]? = some slot) (n : Node) :
    (st.setNode i n).slots[i]? = some { slot with node := n } := by
  rw [getElem?_setNode, if_pos rfl, h]
  rfl

theorem node_appendEdge (h : st.slots[i]? = some slot) (src dst : Nat) :
    ∃ out, (st.appendEdge src dst).slots[i]? = some ⟨slot.node, out⟩ := by
  rw [getElem?_appendEdge, h]
  split
  · exact ⟨_, rfl⟩
  · exact ⟨_, rfl⟩

theorem keeps_setNode_of (h : st.slots[i]? = some slot) {n : Node} (hk : n.kind = slot.node.kind) :
    st.Keeps (st.setNode i n) :=
  Keeps.setNode fun slot' hs => by
    rw [h] at hs
    cases hs
    exact hk.symm

theorem inputs_setNode_cons {a b x : Nat} {rest : List (Nat × Nat)} (h : st.slots[b]? = some slot)
    {n : Node} (hp : ({ slot with node := n } : Slot).isPending = slot.isPending) :
    (st.setNode b n).inputs rest x + (if b = x then 1 else 0) = st.inputs ((a, b) :: rest) x := by
  rw [inputs_setNode h hp, inputs_cons]

theorem inputs_append_into {pre rest : List (Nat × Nat)} {b x : Nat} (hpre : ∀ e ∈ pre, e.2 = b) :
    st.inputs (pre ++ rest) x = st.inputs rest x + if b = x then pre.length else 0 := by
  have hc : pre.countP (·.2 == x) = if b = x then pre.length else 0 := by
    split
    · rename_i hbx
      exact List.countP_eq_length.2 fun e he => by simp [hpre e he, hbx]
    · rename_i hbx
      exact List.countP_eq_zero.2 fun e he => by simp [hpre e he, hbx]
  simp only [inputs, List.countP_append, hc]
  omega

/-- Every edge of a stack leaves a barrier or a unit, and reaches a vertex. -/
def Carries (st : Store) (stack : List (Nat × Nat)) : Prop :=
  ∀ e ∈ stack, (st.HasKind e.1 .barrier ∨ st.HasKind e.1 .unit) ∧ e.2 < st.size

namespace Carries

variable {stack rest : List (Nat × Nat)}

theorem keeps {st' : Store} (h : st.Carries stack) (hk : st.Keeps st') (hsz : st.size ≤ st'.size) :
    st'.Carries stack := fun e he =>
  ⟨(h e he).1.imp hk.hasKind hk.hasKind, Nat.lt_of_lt_of_le (h e he).2 hsz⟩

theorem of_sublist (h : st.Carries stack) (hl : rest.Sublist stack) : st.Carries rest :=
  fun e he => h e (hl.subset he)

theorem append (h₁ : st.Carries stack) (h₂ : st.Carries rest) : st.Carries (stack ++ rest) := by
  intro e he
  rcases List.mem_append.1 he with he | he
  · exact h₁ e he
  · exact h₂ e he

theorem edges (hc : st.Closed) (hi : st.slots[i]? = some slot)
    (hk : slot.node.kind = .barrier ∨ slot.node.kind = .unit) :
    st.Carries (slot.out.toList.map (i, ·)) := by
  intro e he
  obtain ⟨d, hd, rfl⟩ := List.mem_map.1 he
  exact ⟨hk.imp (fun hk => ⟨slot, hi, hk⟩) fun hk => ⟨slot, hi, hk⟩,
    hc i slot hi d (Array.mem_toList_iff.1 hd)⟩

end Carries

end Store

/-- What a run keeps while readiness spreads from `stack`: each barrier awaits exactly its inputs.
-/
structure Scheduler.Balanced (s : Scheduler) (stack : List (Nat × Nat)) : Prop where
  closed : s.store.Closed
  bounded : s.store.EdgeBound
  carried : s.store.Carries stack
  barrier : ∀ (b : Nat) (bar : BarrierNode) (out : Array Nat),
    s.store.slots[b]? = some ⟨.barrier bar, out⟩ →
      bar.waiting = s.store.inputs stack b ∧ (bar.satisfied = true → bar.waiting = 0)
  unit : ∀ (u : Nat) (un : UnitNode) (out : Array Nat), s.store.slots[u]? = some ⟨.unit un, out⟩ →
    s.store.inputs stack u + s.queue.count u + un.isScheduled.toNat ≤ 1
  queued : ∀ e ∈ s.queue.entries, s.store.HasKind e.vertex .unit

/-- Each of the first `processors.size` processors has one free node, and no other processor
has one. -/
def Scheduler.Staffed (s : Scheduler) : Prop :=
  ∀ k, s.store.freeCount k = if k < s.processors.size then 1 else 0

namespace Scheduler.Balanced

variable {s s' : Scheduler} {stack rest : List (Nat × Nat)}

theorem congr (h : s.Balanced stack) (hst : s'.store = s.store) (hq : s'.queue = s.queue) :
    s'.Balanced stack := by
  refine ⟨?_, ?_, ?_, ?_, ?_, ?_⟩ <;> simp only [hst, hq]
  exacts [h.closed, h.bounded, h.carried, h.barrier, h.unit, h.queued]

theorem dequeue (h : s.Balanced stack) (hst : s'.store = s.store)
    (hq : s'.queue.entries.Sublist s.queue.entries) : s'.Balanced stack := by
  refine ⟨?_, ?_, ?_, ?_, fun u un out hu => ?_, fun e he => ?_⟩ <;> simp only [hst] at *
  exacts [h.closed, h.bounded, h.carried, h.barrier, by
    have := h.unit u un out hu
    have hle : s'.queue.count u ≤ s.queue.count u := hq.countP_le
    omega, h.queued e (hq.subset he)]

/-! Vertices and edges added while no readiness spreads. -/

theorem load_new (h : s.Balanced stack) :
    s.store.inputs stack s.store.size + s.queue.count s.store.size = 0 := by
  have hin : s.store.inputs stack s.store.size = 0 := by
    rw [Store.inputs, Store.pendingInputs_eq_zero_of_le h.closed (Nat.le_refl _), Nat.zero_add]
    refine List.countP_eq_zero.2 fun e he => ?_
    have := (h.carried e he).2
    simp only [beq_iff_eq]
    omega
  have hq : s.queue.count s.store.size = 0 :=
    List.countP_eq_zero.2 fun e he => by simpa using Nat.ne_of_lt (h.queued e he).lt_size
  omega

/-- A new vertex, awaiting nothing if it is a barrier: no edge and no queue entry reaches it. -/
theorem append (h : s.Balanced stack) {n : Node} (hn : ∀ bar, n = .barrier bar → bar.waiting = 0)
    (hst : s'.store = s.store.append n) (hq : s'.queue = s.queue) : s'.Balanced stack := by
  have hnew := h.load_new
  refine ⟨?_, ?_, ?_, ?_, ?_, ?_⟩ <;> simp only [hst, hq]
  · exact h.closed.append n
  · exact h.bounded.append n
  · exact h.carried.keeps (Store.Keeps.append n) (by simp)
  · intro b bar out hb
    rw [Store.inputs_append]
    by_cases hi : b = s.store.size
    · subst hi
      rw [Store.getElem?_append, if_pos rfl] at hb
      cases hb
      exact ⟨by rw [hn bar rfl]; omega, fun _ => hn bar rfl⟩
    · exact h.barrier b bar out (Store.slot_of_append hb hi)
  · intro u un out hu
    rw [Store.inputs_append]
    by_cases hi : u = s.store.size
    · subst hi
      have := Bool.toNat_le un.isScheduled
      omega
    · exact h.unit u un out (Store.slot_of_append hu hi)
  · intro e he
    exact (Store.Keeps.append n).hasKind (h.queued e he)

/-- A recorded edge that is no input: either its source is settled, or it is the one input of
an idle unit. -/
theorem appendEdge (h : s.Balanced []) {src dst : Nat} {ssrc : Slot}
    (hsrc : s.store.slots[src]? = some ssrc) (hdst : dst < s.store.size)
    (hidle : ssrc.isPending = true → ¬ s.store.HasKind dst .barrier ∧
      ∀ un out, s.store.slots[dst]? = some ⟨.unit un, out⟩ →
        s.store.inputs [] dst + s.queue.count dst + un.isScheduled.toNat = 0)
    (hst : s'.store = s.store.appendEdge src dst) (hq : s'.queue = s.queue) : s'.Balanced [] := by
  have hin : ∀ x, (s.store.appendEdge src dst).inputs [] x =
      s.store.inputs [] x + if ssrc.isPending = true ∧ dst = x then 1 else 0 :=
    fun _ => Store.inputs_appendEdge hsrc
  refine ⟨?_, ?_, ?_, ?_, ?_, ?_⟩ <;> simp only [hst, hq]
  · exact h.closed.appendEdge src hdst
  · exact h.bounded.appendEdge src dst
  · intro e he
    cases he
  · intro b bar out hb
    obtain ⟨⟨n, o⟩, hs, hn⟩ := Store.node_of_appendEdge hb
    dsimp only at hn
    subst hn
    rw [hin b]
    split
    · rename_i hc
      obtain ⟨hp, rfl⟩ := hc
      exact absurd ⟨_, hs, rfl⟩ (hidle hp).1
    · simpa using h.barrier b bar o hs
  · intro u un out hu
    obtain ⟨⟨n, o⟩, hs, hn⟩ := Store.node_of_appendEdge hu
    dsimp only at hn
    subst hn
    rw [hin u]
    split
    · rename_i hc
      obtain ⟨hp, rfl⟩ := hc
      have := (hidle hp).2 un o hs
      omega
    · simpa using h.unit u un o hs
  · intro e he
    exact (Store.Keeps.appendEdge src dst).hasKind (h.queued e he)

/-- An edge from a pending vertex into a barrier not yet satisfied is one more input, which the
barrier counts: its count stays below the word's limit. -/
theorem addInput (h : s.Balanced []) {src dst : Nat} {ssrc : Slot} {bar : BarrierNode}
    {out : Array Nat} (hsrc : s.store.slots[src]? = some ssrc) (hp : ssrc.isPending = true)
    (hdst : s.store.slots[dst]? = some ⟨.barrier bar, out⟩) (hsat : bar.satisfied = false)
    (hw : bar.waiting + 1 < BarrierNode.inputLimit)
    (hst : s'.store = (s.store.appendEdge src dst).setNode dst (.barrier bar.addInput))
    (hq : s'.queue = s.queue) : s'.Balanced [] := by
  obtain ⟨o', hdst'⟩ := Store.node_appendEdge hdst src dst
  have hin : ∀ x, s'.store.inputs [] x = s.store.inputs [] x + if dst = x then 1 else 0 := by
    intro x
    rw [hst, Store.inputs_setNode (n := .barrier bar.addInput) hdst' rfl, Store.inputs_appendEdge hsrc]
    simp [hp]
  have hwait : bar.addInput.waiting = bar.waiting + 1 := Nat.mod_eq_of_lt hw
  refine ⟨?_, ?_, ?_, ?_, ?_, ?_⟩
  · rw [hst]
    exact (h.closed.appendEdge src (Array.getElem?_eq_some_iff.1 hdst).1).setNode _ _
  · rw [hst]
    exact (h.bounded.appendEdge src dst).setNode _ _
  · intro e he
    cases he
  · intro b bar' out' hb
    rw [hin b]
    by_cases hdb : dst = b
    · subst hdb
      rw [hst, Store.getElem?_setNode_self hdst'] at hb
      cases hb
      refine ⟨by rw [hwait, (h.barrier dst bar out hdst).1, if_pos rfl], fun hs => ?_⟩
      exact absurd (hs.symm.trans hsat) Bool.noConfusion
    · rw [hst] at hb
      obtain ⟨⟨n, o⟩, hs, hn⟩ := Store.node_of_appendEdge (Store.slot_of_setNode hb hdb)
      dsimp only at hn
      subst hn
      simpa [hdb] using h.barrier b bar' o hs
  · intro u un out' hu
    rw [hin u, hq]
    by_cases hdu : dst = u
    · subst hdu
      rw [hst, Store.getElem?_setNode_self hdst'] at hu
      cases hu
    · rw [hst] at hu
      obtain ⟨⟨n, o⟩, hs, hn⟩ := Store.node_of_appendEdge (Store.slot_of_setNode hu hdu)
      dsimp only at hn
      subst hn
      simpa [hdu] using h.unit u un o hs
  · intro e he
    rw [hq] at he
    rw [hst]
    refine ((Store.Keeps.appendEdge src dst).trans (Store.Keeps.setNode fun slot hs => ?_)).hasKind
      (h.queued e he)
    rw [hdst'] at hs
    cases hs
    rfl

/-! Taking edges from the stack. -/

variable {a b : Nat}

theorem pop (h : s.Balanced ((a, b) :: rest)) (hb : ¬ s.store.HasKind b .barrier) :
    s.Balanced rest := by
  refine ⟨h.closed, h.bounded, h.carried.of_sublist (List.sublist_cons_self _ _), ?_, ?_, h.queued⟩
  · intro x bar out hx
    have hne : b ≠ x := by
      rintro rfl
      exact hb ⟨_, hx, rfl⟩
    have h0 := h.barrier x bar out hx
    rwa [Store.inputs_cons, if_neg hne, Nat.add_zero] at h0
  · intro u un out hu
    have h0 := h.unit u un out hu
    rw [Store.inputs_cons] at h0
    omega

/-- An input that is not the barrier's last lowers its count with its inputs. -/
theorem wait (h : s.Balanced ((a, b) :: rest)) {bar nb : BarrierNode} {out : Array Nat}
    (hb : s.store.slots[b]? = some ⟨.barrier bar, out⟩) (hw : nb.waiting + 1 = bar.waiting)
    (hs : nb.satisfied = bar.satisfied) (hst : s'.store = s.store.setNode b (.barrier nb))
    (hq : s'.queue = s.queue) : s'.Balanced rest := by
  have hin : ∀ x, (s.store.setNode b (.barrier nb)).inputs rest x + (if b = x then 1 else 0) =
      s.store.inputs ((a, b) :: rest) x :=
    fun _ => Store.inputs_setNode_cons (n := .barrier nb) hb (by simp [Slot.isPending, hs])
  have hk := Store.keeps_setNode_of (n := .barrier nb) hb rfl
  refine ⟨?_, ?_, ?_, ?_, ?_, ?_⟩ <;> simp only [hst, hq]
  · exact h.closed.setNode _ _
  · exact h.bounded.setNode _ _
  · exact (h.carried.of_sublist (List.sublist_cons_self _ _)).keeps hk (by simp)
  · intro x bar' out' hx
    by_cases hbx : b = x
    · subst hbx
      rw [Store.getElem?_setNode_self hb] at hx
      cases hx
      have h0 := h.barrier b bar out hb
      have h1 := hin b
      rw [if_pos rfl] at h1
      refine ⟨by omega, fun hsat => ?_⟩
      have := h0.2 (hs ▸ hsat)
      omega
    · have h1 := hin x
      rw [if_neg hbx, Nat.add_zero] at h1
      rw [h1]
      exact h.barrier x bar' out' (Store.slot_of_setNode hx hbx)
  · intro u un out' hu
    have hbu : b ≠ u := by
      rintro rfl
      rw [Store.getElem?_setNode_self hb] at hu
      cases hu
    have h1 := hin u
    rw [if_neg hbu, Nat.add_zero] at h1
    rw [h1]
    exact h.unit u un out' (Store.slot_of_setNode hu hbu)
  · exact fun e he => hk.hasKind (h.queued e he)

/-- A barrier that takes its last input, or that awaits none when the root is linked to it,
fires: the inputs it had leave the stack, and its own edges go on. -/
theorem settle {pre : List (Nat × Nat)} (h : s.Balanced (pre ++ rest)) {bar nb : BarrierNode}
    {out : Array Nat} (hb : s.store.slots[b]? = some ⟨.barrier bar, out⟩) (hpre : ∀ e ∈ pre, e.2 = b)
    (hw : bar.waiting = pre.length) (hsat : bar.satisfied = false) (hnw : nb.waiting = 0)
    (hns : nb.satisfied = true) (hst : s'.store = s.store.setNode b (.barrier nb))
    (hq : s'.queue = s.queue) : s'.Balanced (out.toList.map (b, ·) ++ rest) := by
  have hin : ∀ x, (s.store.setNode b (.barrier nb)).inputs (out.toList.map (b, ·) ++ rest) x +
      (if b = x then pre.length else 0) = s.store.inputs (pre ++ rest) x := by
    intro x
    rw [Store.inputs_settle (n := .barrier nb) hb (by simp [Slot.isPending, hsat])
      (by simp [Slot.isPending, hns]), Store.inputs_append_into hpre]
  have hk := Store.keeps_setNode_of (n := .barrier nb) hb rfl
  refine ⟨?_, ?_, ?_, ?_, ?_, ?_⟩ <;> simp only [hst, hq]
  · exact h.closed.setNode _ _
  · exact h.bounded.setNode _ _
  · exact ((Store.Carries.edges h.closed hb (.inl rfl)).append
      (h.carried.of_sublist (List.sublist_append_right _ _))).keeps hk (by simp)
  · intro x bar' out' hx
    by_cases hbx : b = x
    · subst hbx
      rw [Store.getElem?_setNode_self hb] at hx
      cases hx
      have h0 := (h.barrier b bar out hb).1
      have h1 := hin b
      rw [if_pos rfl] at h1
      exact ⟨by omega, fun _ => hnw⟩
    · have h1 := hin x
      rw [if_neg hbx, Nat.add_zero] at h1
      rw [h1]
      exact h.barrier x bar' out' (Store.slot_of_setNode hx hbx)
  · intro u un out' hu
    have hbu : b ≠ u := by
      rintro rfl
      rw [Store.getElem?_setNode_self hb] at hu
      cases hu
    have h1 := hin u
    rw [if_neg hbu, Nat.add_zero] at h1
    rw [h1]
    exact h.unit u un out' (Store.slot_of_setNode hu hbu)
  · exact fun e he => hk.hasKind (h.queued e he)

/-- A fired barrier's edge into a unit queues the unit: its input becomes its entry in the
queue. -/
theorem release (h : s.Balanced ((a, b) :: rest)) {un un' : UnitNode} {ou : Array Nat} {p : Double}
    (hb : s.store.slots[b]? = some ⟨.unit un, ou⟩) (hsch : un'.isScheduled = un.isScheduled)
    (hst : s'.store = s.store.setNode b (.unit un')) (hq : s'.queue = s.queue.push b p) :
    s'.Balanced rest := by
  have hin : ∀ x, (s.store.setNode b (.unit un')).inputs rest x + (if b = x then 1 else 0) =
      s.store.inputs ((a, b) :: rest) x :=
    fun _ => Store.inputs_setNode_cons (n := .unit un') hb (by simp [Slot.isPending, hsch])
  have hk := Store.keeps_setNode_of (n := .unit un') hb rfl
  refine ⟨?_, ?_, ?_, ?_, ?_, ?_⟩ <;> simp only [hst, hq]
  · exact h.closed.setNode _ _
  · exact h.bounded.setNode _ _
  · exact (h.carried.of_sublist (List.sublist_cons_self _ _)).keeps hk (by simp)
  · intro x bar out hx
    have hbx : b ≠ x := by
      rintro rfl
      rw [Store.getElem?_setNode_self hb] at hx
      cases hx
    have h1 := hin x
    rw [if_neg hbx, Nat.add_zero] at h1
    rw [h1]
    exact h.barrier x bar out (Store.slot_of_setNode hx hbx)
  · intro u un₁ out' hu
    rw [ReadyQueue.count_push]
    by_cases hbu : b = u
    · subst hbu
      rw [Store.getElem?_setNode_self hb] at hu
      cases hu
      have h0 := h.unit b un ou hb
      have h1 := hin b
      rw [if_pos rfl] at h1
      rw [if_pos rfl, hsch]
      omega
    · have h1 := hin u
      rw [if_neg hbu, Nat.add_zero] at h1
      rw [h1, if_neg hbu, Nat.add_zero]
      exact h.unit u un₁ out' (Store.slot_of_setNode hu hbu)
  · intro e he
    rcases ReadyQueue.mem_push he with he | he
    · rw [he]
      exact Store.hasKind_setNode hb _
    · exact hk.hasKind (h.queued e he)

/-! Placing a unit. -/

/-- Rewriting a processor node changes no count. -/
theorem setProcessor (h : s.Balanced stack) {i : Nat} {node node' : ProcessorNode}
    {op : Array Nat} (hi : s.store.slots[i]? = some ⟨.processor node, op⟩)
    (hst : s'.store = s.store.setNode i (.processor node')) (hq : s'.queue = s.queue) :
    s'.Balanced stack := by
  have hin : ∀ x, (s.store.setNode i (.processor node')).inputs stack x = s.store.inputs stack x :=
    fun _ => Store.inputs_setNode (n := .processor node') hi rfl
  have hk := Store.keeps_setNode_of (n := .processor node') hi rfl
  refine ⟨?_, ?_, ?_, ?_, ?_, ?_⟩ <;> simp only [hst, hq]
  · exact h.closed.setNode _ _
  · exact h.bounded.setNode _ _
  · exact h.carried.keeps hk (by simp)
  · intro x bar out hx
    have hix : i ≠ x := by
      rintro rfl
      rw [Store.getElem?_setNode_self hi] at hx
      cases hx
    rw [hin]
    exact h.barrier x bar out (Store.slot_of_setNode hx hix)
  · intro u un out hu
    have hiu : i ≠ u := by
      rintro rfl
      rw [Store.getElem?_setNode_self hi] at hu
      cases hu
    rw [hin]
    exact h.unit u un out (Store.slot_of_setNode hu hiu)
  · exact fun e he => hk.hasKind (h.queued e he)

/-- A unit placed on a processor, with no input and no queue entry left, drives its edges: they
go on the stack. -/
theorem place (h : s.Balanced []) {u : Nat} {un un' : UnitNode} {ou : Array Nat}
    (hu : s.store.slots[u]? = some ⟨.unit un, ou⟩) (hsch : un.isScheduled = false)
    (hload : s.store.inputs [] u + s.queue.count u = 0) (hsch' : un'.isScheduled = true)
    (hst : s'.store = s.store.setNode u (.unit un')) (hq : s'.queue = s.queue) :
    s'.Balanced (ou.toList.map (u, ·)) := by
  have hin : ∀ x, (s.store.setNode u (.unit un')).inputs (ou.toList.map (u, ·)) x =
      s.store.inputs [] x := by
    intro x
    rw [← List.append_nil (ou.toList.map (u, ·)), Store.inputs_settle (n := .unit un') hu
      (by simp [Slot.isPending, hsch]) (by simp [Slot.isPending, hsch'])]
  have hk := Store.keeps_setNode_of (n := .unit un') hu rfl
  refine ⟨?_, ?_, ?_, ?_, ?_, ?_⟩ <;> simp only [hst, hq]
  · exact h.closed.setNode _ _
  · exact h.bounded.setNode _ _
  · exact (Store.Carries.edges h.closed hu (.inr rfl)).keeps hk (by simp)
  · intro x bar out hx
    have hux : u ≠ x := by
      rintro rfl
      rw [Store.getElem?_setNode_self hu] at hx
      cases hx
    rw [hin]
    exact h.barrier x bar out (Store.slot_of_setNode hx hux)
  · intro x un₁ out hx
    rw [hin]
    by_cases hux : u = x
    · subst hux
      rw [Store.getElem?_setNode_self hu] at hx
      cases hx
      rw [hsch']
      simp only [Bool.toNat_true]
      omega
    · exact h.unit x un₁ out (Store.slot_of_setNode hx hux)
  · exact fun e he => hk.hasKind (h.queued e he)

/-- An edge from a placed unit to the processor node after it, which goes on the stack too. -/
theorem appendOrder (h : s.Balanced stack) {src dst : Nat} {ssrc : Slot}
    (hsrc : s.store.slots[src]? = some ssrc) (hp : ssrc.isPending = false)
    (hk : ssrc.node.kind = .unit) (hdst : s.store.HasKind dst .processor)
    (hst : s'.store = s.store.appendEdge src dst) (hq : s'.queue = s.queue) :
    s'.Balanced (stack ++ [(src, dst)]) := by
  have hin : ∀ x, (s.store.appendEdge src dst).inputs (stack ++ [(src, dst)]) x =
      s.store.inputs stack x + if dst = x then 1 else 0 := by
    intro x
    have h₁ : (s.store.appendEdge src dst).inputs (stack ++ [(src, dst)]) x =
        s.store.inputs (stack ++ [(src, dst)]) x + if ssrc.isPending = true ∧ dst = x then 1 else 0 :=
      Store.inputs_appendEdge hsrc
    simp only [hp, Bool.false_eq_true, false_and, if_false, Nat.add_zero] at h₁
    rw [h₁]
    simp only [Store.inputs, List.countP_append, List.countP_singleton, beq_iff_eq]
    omega
  have hne : ∀ x (n : Node) (out : Array Nat), s.store.slots[x]? = some ⟨n, out⟩ →
      n.kind ≠ .processor → dst ≠ x := by
    rintro x n out hx hn rfl
    obtain ⟨slot, hs, hks⟩ := hdst
    rw [hx] at hs
    cases hs
    exact hn hks
  refine ⟨?_, ?_, ?_, ?_, ?_, ?_⟩ <;> simp only [hst, hq]
  · exact h.closed.appendEdge src hdst.lt_size
  · exact h.bounded.appendEdge src dst
  · refine (h.carried.append fun e he => ?_).keeps (Store.Keeps.appendEdge src dst) (by simp)
    rw [List.mem_singleton] at he
    subst he
    exact ⟨.inr ⟨ssrc, hsrc, hk⟩, hdst.lt_size⟩
  · intro x bar out hx
    obtain ⟨⟨n, o⟩, hs, hn⟩ := Store.node_of_appendEdge hx
    dsimp only at hn
    subst hn
    rw [hin, if_neg (hne x _ o hs (by simp [Node.kind])), Nat.add_zero]
    exact h.barrier x bar o hs
  · intro x un out hx
    obtain ⟨⟨n, o⟩, hs, hn⟩ := Store.node_of_appendEdge hx
    dsimp only at hn
    subst hn
    rw [hin, if_neg (hne x _ o hs (by simp [Node.kind])), Nat.add_zero]
    exact h.unit x un o hs
  · exact fun e he => (Store.Keeps.appendEdge src dst).hasKind (h.queued e he)

end Scheduler.Balanced

/-! The free nodes. -/

theorem Slot.isFree_eq_false {slot : Slot} (h : slot.node.kind ≠ .processor) (k : Nat) :
    slot.isFree k = false := by
  obtain ⟨n, out⟩ := slot
  cases n with
  | processor p => exact absurd rfl h
  | _ => rfl

namespace Store

variable {st : Store} {i k : Nat} {slot : Slot}

theorem freeCount_setNode_of (h : st.slots[i]? = some slot) {n : Node}
    (hs : slot.node.kind ≠ .processor) (hn : n.kind ≠ .processor) :
    (st.setNode i n).freeCount k = st.freeCount k := by
  have ht := freeCount_setNode (k := k) h n
  rw [Slot.isFree_eq_false hs, @Slot.isFree_eq_false { slot with node := n } hn] at ht
  exact Nat.add_right_cancel ht

theorem freeCount_append_of {n : Node} (hn : n.kind ≠ .processor) :
    (st.append n).freeCount k = st.freeCount k := by
  rw [freeCount_append, @Slot.isFree_eq_false { node := n } hn]
  rfl

end Store

namespace Scheduler.Staffed

variable {s s' : Scheduler}

theorem of_freeCount (h : s.Staffed) (hf : ∀ k, s'.store.freeCount k = s.store.freeCount k)
    (hp : s'.processors.size = s.processors.size) : s'.Staffed := by
  intro k
  rw [hf, hp]
  exact h k

theorem push (h : s.Staffed)
    (hf : ∀ k, s'.store.freeCount k = s.store.freeCount k + if k = s.processors.size then 1 else 0)
    (hp : s'.processors.size = s.processors.size + 1) : s'.Staffed := by
  intro k
  rw [hf, hp, h k]
  by_cases hk : k = s.processors.size
  · simp [hk]
  · by_cases hlt : k < s.processors.size
    · simp [hk, hlt, Nat.lt_succ_of_lt hlt]
    · have : ¬ k < s.processors.size + 1 := by omega
      simp [hk, hlt, this]

end Scheduler.Staffed

end ListScheduling
