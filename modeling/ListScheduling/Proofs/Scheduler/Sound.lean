import ListScheduling.Proofs.Scheduler.Feeds
import ListScheduling.Proofs.Scheduler.Timing
import ListScheduling.Proofs.Scheduler.Frame

/-!
What every step keeps of a run from a root at time `r`.
-/
namespace ListScheduling

/-- A run from a root at time `r`, while readiness spreads from `stack`: every vertex is sound and
every unit released at most once. -/
structure Scheduler.Sound (r : Double) (s : Scheduler) (stack : List (Nat × Nat)) : Prop where
  nodes : ∀ (i : Nat) (slot : Slot), s.store.slots[i]? = some slot → slot.node.Sound r
  closed : s.store.Closed
  fed : ∀ i, s.store.HasKind i .unit → s.store.feeds stack i ≤ 1
  placed : ∀ (i : Nat) (slot : Slot) (un : UnitNode), s.store.slots[i]? = some slot →
    slot.node = .unit un → un.isScheduled = true → s.store.feeds stack i = 0
  queued : ∀ e ∈ s.queue.entries, s.store.HasKind e.vertex .unit ∧ s.store.feeds stack e.vertex = 0

/-- A vertex nothing can release yet, which is not placed and not queued: an edge from a barrier
may go into it. -/
def Scheduler.Idle (s : Scheduler) (i : Nat) : Prop :=
  s.store.feeds [] i = 0 ∧
    (∀ (slot : Slot) (un : UnitNode), s.store.slots[i]? = some slot → slot.node = .unit un →
      un.isScheduled = false) ∧
    ∀ e ∈ s.queue.entries, e.vertex ≠ i

namespace Store

variable {st : Store} {i j : Nat} {k : NodeKind}

theorem node_of_appendEdge {src dst : Nat} {slot' : Slot}
    (h : (st.appendEdge src dst).slots[j]? = some slot') :
    ∃ slot, st.slots[j]? = some slot ∧ slot.node = slot'.node := by
  rw [getElem?_appendEdge] at h
  split at h
  · obtain ⟨slot, hs, rfl⟩ := Option.map_eq_some_iff.1 h
    exact ⟨slot, hs, rfl⟩
  · exact ⟨slot', h, rfl⟩

theorem slot_of_append {n : Node} {slot' : Slot} (h : (st.append n).slots[j]? = some slot')
    (hj : j ≠ st.size) : st.slots[j]? = some slot' := by
  rwa [getElem?_append, if_neg hj] at h

theorem slot_of_setNode {n : Node} {slot' : Slot} (h : (st.setNode i n).slots[j]? = some slot')
    (hij : i ≠ j) : st.slots[j]? = some slot' := by
  rwa [getElem?_setNode, if_neg hij] at h

theorem hasKind_setNode {slot : Slot} (hi : st.slots[i]? = some slot) (n : Node) :
    (st.setNode i n).HasKind i n.kind :=
  ⟨{ slot with node := n }, by rw [getElem?_setNode, if_pos rfl, hi]; rfl, rfl⟩

theorem HasKind.of_appendEdge {src dst : Nat} (h : (st.appendEdge src dst).HasKind j k) :
    st.HasKind j k := by
  obtain ⟨slot', hs', rfl⟩ := h
  obtain ⟨slot, hs, hn⟩ := node_of_appendEdge hs'
  exact ⟨slot, hs, by rw [hn]⟩

theorem HasKind.of_setNode {n : Node} {slot : Slot} (hi : st.slots[i]? = some slot)
    (hk : n.kind = slot.node.kind) (h : (st.setNode i n).HasKind j k) : st.HasKind j k := by
  obtain ⟨slot', hs', rfl⟩ := h
  by_cases hij : i = j
  · subst hij
    rw [getElem?_setNode, if_pos rfl, hi] at hs'
    cases hs'
    exact ⟨slot, hi, hk.symm⟩
  · exact ⟨slot', slot_of_setNode hs' hij, rfl⟩

end Store

namespace Scheduler.Sound

variable {r : Double} {s s' : Scheduler} {stack : List (Nat × Nat)}

theorem timed (h : s.Sound r stack) : s.store.Timed r :=
  fun i slot hi => (h.nodes i slot hi).timed

theorem mono (h : s.Sound r stack) (hst : s'.store = s.store)
    (hq : ∀ e ∈ s'.queue.entries, e ∈ s.queue.entries) : s'.Sound r stack where
  nodes := hst ▸ h.nodes
  closed := hst ▸ h.closed
  fed := hst ▸ h.fed
  placed := hst ▸ h.placed
  queued e he := hst ▸ h.queued e (hq e he)

theorem drop (h : s.Sound r stack) {stack' : List (Nat × Nat)} (hl : stack'.Sublist stack) :
    s.Sound r stack' where
  nodes := h.nodes
  closed := h.closed
  fed i hi := Nat.le_trans (Store.feeds_le_of_sublist hl) (h.fed i hi)
  placed i slot un hs hn hp := Nat.eq_zero_of_le_zero
    (Nat.le_trans (Store.feeds_le_of_sublist hl) (Nat.le_of_eq (h.placed i slot un hs hn hp)))
  queued e he := ⟨(h.queued e he).1, Nat.eq_zero_of_le_zero
    (Nat.le_trans (Store.feeds_le_of_sublist hl) (Nat.le_of_eq (h.queued e he).2))⟩

theorem push (h : s.Sound r stack) {b : Nat} {p : Double} (hk : s.store.HasKind b .unit)
    (h0 : s.store.feeds stack b = 0) (hst : s'.store = s.store) (hq : s'.queue = s.queue.push b p) :
    s'.Sound r stack where
  nodes := hst ▸ h.nodes
  closed := hst ▸ h.closed
  fed := hst ▸ h.fed
  placed := hst ▸ h.placed
  queued e he := by
    rw [hq] at he
    rcases ReadyQueue.mem_push he with hv | he
    · exact hst ▸ hv ▸ ⟨hk, h0⟩
    · exact hst ▸ h.queued e he

/-- Appending a sound vertex, while no readiness spreads: the new vertex has no edges, and no
edge reaches it yet. -/
theorem append (h : s.Sound r []) {n : Node} (hn : n.Sound r) (hst : s'.store = s.store.append n)
    (hq : s'.queue = s.queue) : s'.Sound r [] := by
  have h0 : s.store.feeds [] s.store.size = 0 := Store.feeds_eq_zero_of_le h.closed (Nat.le_refl _)
  refine ⟨?_, ?_, ?_, ?_, ?_⟩ <;> rw [hst]
  · intro i slot hs
    by_cases hi : i = s.store.size
    · rw [Store.getElem?_append, if_pos hi] at hs
      cases hs
      exact hn
    · exact h.nodes i slot (Store.slot_of_append hs hi)
  · exact h.closed.append n
  · intro i hk
    rw [Store.feeds_append]
    by_cases hi : i = s.store.size
    · rw [hi, h0]
      exact Nat.zero_le 1
    · obtain ⟨slot, hs, hk⟩ := hk
      exact h.fed i ⟨slot, Store.slot_of_append hs hi, hk⟩
  · intro i slot un hs hn hp
    rw [Store.feeds_append]
    by_cases hi : i = s.store.size
    · rw [hi, h0]
    · exact h.placed i slot un (Store.slot_of_append hs hi) hn hp
  · intro e he
    rw [hq] at he
    obtain ⟨hk, he0⟩ := h.queued e he
    exact ⟨(Store.Keeps.append n).hasKind hk, by rw [Store.feeds_append, he0]⟩

/-- Recording an edge while no readiness spreads: an edge from a barrier not yet fired into a
unit gives the unit its release, so the unit must be idle. -/
theorem appendEdge (h : s.Sound r []) {src dst : Nat} {ssrc sdst : Slot}
    (hsrc : s.store.slots[src]? = some ssrc) (hdst : s.store.slots[dst]? = some sdst)
    (hidle : ssrc.isOpen = true → sdst.node.kind = .unit → s.Idle dst)
    (hst : s'.store = s.store.appendEdge src dst) (hq : s'.queue = s.queue) : s'.Sound r [] := by
  have hfeeds : ∀ u, (s.store.appendEdge src dst).feeds [] u =
      s.store.feeds [] u + if ssrc.isOpen = true ∧ dst = u then 1 else 0 :=
    fun _ => Store.feeds_appendEdge hsrc
  -- the one count that grows is that of `dst`, and only for an edge from an open barrier
  have hgrow : ∀ u, ssrc.isOpen = true ∧ dst = u → s.store.HasKind u .unit → s.Idle dst := by
    rintro u ⟨ho, rfl⟩ ⟨slot, hs, hk⟩
    rw [hdst] at hs
    cases hs
    exact hidle ho hk
  refine ⟨?_, ?_, ?_, ?_, ?_⟩ <;> rw [hst]
  · intro i slot' hs'
    obtain ⟨slot, hs, hn⟩ := Store.node_of_appendEdge hs'
    exact hn ▸ h.nodes i slot hs
  · exact h.closed.appendEdge src (Array.getElem?_eq_some_iff.1 hdst).1
  · intro i hk
    have hk₀ := hk.of_appendEdge
    rw [hfeeds]
    split
    · rename_i hc
      exact Nat.le_of_eq (by rw [← hc.2, (hgrow i hc hk₀).1])
    · simpa using h.fed i hk₀
  · intro i slot' un hs' hn hp
    obtain ⟨slot, hs, hn'⟩ := Store.node_of_appendEdge hs'
    have hk₀ : s.store.HasKind i .unit := ⟨slot, hs, by rw [hn', hn]; rfl⟩
    rw [hfeeds]
    split
    · rename_i hc
      have := (hgrow i hc hk₀).2.1 slot un (hc.2 ▸ hs) (hn'.trans hn)
      rw [hp] at this
      cases this
    · simpa using h.placed i slot un hs (hn'.trans hn) hp
  · intro e he
    rw [hq] at he
    obtain ⟨hk, he0⟩ := h.queued e he
    refine ⟨(Store.Keeps.appendEdge src dst).hasKind hk, ?_⟩
    rw [hfeeds]
    split
    · rename_i hc
      exact absurd hc.2.symm ((hgrow _ hc hk).2.2 e he)
    · simpa using he0

/-- Rewriting a vertex with a sound one of its kind, when no count changes, and a unit becomes
placed only when nothing can release it. -/
theorem rewrite (h : s.Sound r stack) {i : Nat} {slot : Slot} {n : Node}
    {stack' : List (Nat × Nat)} (hi : s.store.slots[i]? = some slot) (hn : n.Sound r)
    (hk : n.kind = slot.node.kind)
    (hfeeds : ∀ u, (s.store.setNode i n).feeds stack' u = s.store.feeds stack u)
    (hplaced : ∀ un, n = .unit un → un.isScheduled = true → s.store.feeds stack i = 0)
    (hst : s'.store = s.store.setNode i n) (hq : s'.queue = s.queue) : s'.Sound r stack' := by
  refine ⟨?_, ?_, ?_, ?_, ?_⟩ <;> rw [hst]
  · intro j slot' hs'
    by_cases hij : i = j
    · subst hij
      rw [Store.getElem?_setNode, if_pos rfl, hi] at hs'
      cases hs'
      exact hn
    · exact h.nodes j slot' (Store.slot_of_setNode hs' hij)
  · exact h.closed.setNode i n
  · intro j hj
    rw [hfeeds]
    exact h.fed j (hj.of_setNode hi hk)
  · intro j slot' un hs' hn' hp
    rw [hfeeds]
    by_cases hij : i = j
    · subst hij
      rw [Store.getElem?_setNode, if_pos rfl, hi] at hs'
      cases hs'
      exact hplaced un hn' hp
    · exact h.placed j slot' un (Store.slot_of_setNode hs' hij) hn' hp
  · intro e he
    rw [hq] at he
    obtain ⟨hk', he0⟩ := h.queued e he
    refine ⟨(Store.Keeps.setNode fun slot' hs => ?_).hasKind hk', by rw [hfeeds, he0]⟩
    rw [hi] at hs
    cases hs
    exact hk.symm

theorem setNode (h : s.Sound r stack) {i : Nat} {slot : Slot} {n : Node}
    (hi : s.store.slots[i]? = some slot) (hn : n.Sound r) (hk : n.kind = slot.node.kind)
    (ho : ({ slot with node := n } : Slot).isOpen = slot.isOpen)
    (hplaced : ∀ un, n = .unit un → un.isScheduled = true → s.store.feeds stack i = 0)
    (hst : s'.store = s.store.setNode i n) (hq : s'.queue = s.queue) : s'.Sound r stack :=
  h.rewrite hi hn hk (fun _ => Store.feeds_setNode hi hk ho stack) hplaced hst hq

theorem fire (h : s.Sound r stack) {b : Nat} {bar nb : BarrierNode} {out : Array Nat}
    (hb : s.store.slots[b]? = some ⟨.barrier bar, out⟩) (hs : bar.satisfied = false)
    (hn : (Node.barrier nb).Sound r) (hsat : nb.satisfied = true)
    (hst : s'.store = s.store.setNode b (.barrier nb)) (hq : s'.queue = s.queue) :
    s'.Sound r (out.toList.map (b, ·) ++ stack) :=
  h.rewrite hb hn rfl
    (fun _ => Store.feeds_fire (n := .barrier nb) hb rfl (by simp [Slot.isOpen, hs])
      (by simp [Slot.isOpen, hsat]) stack)
    (fun _ h => nomatch h) hst hq

theorem extend (h : s.Sound r stack) {extra : List (Nat × Nat)}
    (hz : ∀ u, s.store.stackFeeds extra u = 0) : s.Sound r (extra ++ stack) := by
  have hf : ∀ u, s.store.feeds (extra ++ stack) u = s.store.feeds stack u := by
    intro u
    rw [Store.feeds, Store.feeds, Store.stackFeeds_append, hz u, Nat.zero_add]
  exact ⟨h.nodes, h.closed, fun i hi => hf i ▸ h.fed i hi,
    fun i slot un hs hn hp => (hf i).trans (h.placed i slot un hs hn hp),
    fun e he => ⟨(h.queued e he).1, (hf _).trans (h.queued e he).2⟩⟩

theorem feeds_rest {a b : Nat} {rest : List (Nat × Nat)} (h : s.Sound r ((a, b) :: rest))
    (ha : s.store.isBarrier a = true) (hb : s.store.HasKind b .unit) :
    s.store.feeds rest b = 0 := by
  have h1 := h.fed b hb
  rw [Store.feeds_cons_of_isBarrier ha] at h1
  omega

theorem unplaced_of_top {a b : Nat} {rest : List (Nat × Nat)} (h : s.Sound r ((a, b) :: rest))
    (ha : s.store.isBarrier a = true) {slot : Slot} {un : UnitNode}
    (hb : s.store.slots[b]? = some slot) (hn : slot.node = .unit un) : un.isScheduled = false := by
  cases hp : un.isScheduled
  · rfl
  · have h0 := h.placed b slot un hb hn hp
    rw [Store.feeds_cons_of_isBarrier ha] at h0
    cases h0

end Scheduler.Sound

end ListScheduling
