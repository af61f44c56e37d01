import ListScheduling.Scheduler.Plan
import ListScheduling.Proofs.Scheduler.Steps
import ListScheduling.Proofs.Scheduler.Sound

/-!
The chains of processor nodes a run builds, and the changes of the store that keep them.
-/
namespace ListScheduling

/-- The vertices the chains rest on: processor nodes, and units once placed. -/
def Node.isPinned : Node → Bool
  | .processor _ => true
  | .unit u => u.isScheduled
  | _ => false

namespace Store

variable {st st' : Store}

/-- The destinations of the edges of vertex `i`, first edge first; none out of range. -/
def outList (st : Store) (i : Nat) : List Nat := (st.slots[i]?.map (·.out.toList)).getD []

/-- Whether vertex `j` is of kind `k`. -/
def isKind (st : Store) (k : NodeKind) (j : Nat) : Bool :=
  match st.slots[j]? with
  | some slot => slot.node.kind == k
  | none => false

theorem lastEdgeInto_eq (i : Nat) (k : NodeKind) :
    st.lastEdgeInto i k = (st.outList i).reverse.find? (st.isKind k) := rfl

/-! Reading the edges and kinds of a store. -/

section Reads

variable {i j : Nat} {k : NodeKind} {n : Node}

theorem outList_of_getElem? {slot : Slot} (h : st.slots[i]? = some slot) :
    st.outList i = slot.out.toList := by
  simp [outList, h]

theorem outList_of_size_le (h : st.size ≤ i) : st.outList i = [] := by
  simp [outList, Array.getElem?_eq_none (show st.slots.size ≤ i from h)]

theorem isKind_of_getElem? {slot : Slot} (h : st.slots[j]? = some slot) :
    st.isKind k j = (slot.node.kind == k) := by
  simp [isKind, h]

theorem isKind_of_get (h : st.get j = .ok n) : st.isKind k j = (n.kind == k) := by
  obtain ⟨out, hs⟩ := slot_of_get h
  exact isKind_of_getElem? hs

theorem Closed.lt_of_mem_outList (hc : st.Closed) (h : j ∈ st.outList i) : j < st.size := by
  cases hs : st.slots[i]? with
  | none => simp [outList, hs] at h
  | some slot =>
    rw [outList_of_getElem? hs] at h
    exact hc i slot hs j (Array.mem_toList_iff.1 h)

theorem Keeps.isKind (h : st.Keeps st') (hj : j < st.size) : st'.isKind k j = st.isKind k j := by
  obtain ⟨slot, hs⟩ : ∃ slot, st.slots[j]? = some slot := ⟨_, Array.getElem?_eq_getElem hj⟩
  obtain ⟨slot', hs', hk⟩ := h j slot hs
  rw [isKind_of_getElem? hs, isKind_of_getElem? hs', hk]

theorem processorAt_eq_ok {p : ProcessorNode} :
    st.processorAt i = .ok p ↔ st.get i = .ok (.processor p) := by
  constructor
  · intro h
    obtain ⟨out, hs⟩ := slot_of_processorAt h
    exact get_eq hs
  · intro h
    obtain ⟨out, hs⟩ := slot_of_get h
    exact processorAt_eq hs

theorem unitAt_eq_ok {u : UnitNode} : st.unitAt i = .ok u ↔ st.get i = .ok (.unit u) := by
  constructor
  · intro h
    obtain ⟨out, hs⟩ := slot_of_unitAt h
    exact get_eq hs
  · intro h
    obtain ⟨out, hs⟩ := slot_of_get h
    exact unitAt_eq hs

theorem lt_size_of_get (h : st.get i = .ok n) : i < st.size := by
  obtain ⟨out, hs⟩ := slot_of_get h
  exact (Array.getElem?_eq_some_iff.1 hs).1

theorem processorAt_congr (h : st'.get i = st.get i) : st'.processorAt i = st.processorAt i := by
  unfold processorAt
  rw [h]

theorem unitAt_congr (h : st'.get i = st.get i) : st'.unitAt i = st.unitAt i := by
  unfold unitAt
  rw [h]

end Reads

/-! Reading a store after each change. -/

section Changes

variable {i j : Nat} {n : Node}

theorem get_appendEdge (src dst i : Nat) : (st.appendEdge src dst).get i = st.get i := by
  unfold get
  rw [getElem?_appendEdge]
  by_cases h : src = i
  · rw [if_pos h]
    cases st.slots[i]? <;> rfl
  · rw [if_neg h]

theorem get_setNode_self (h : i < st.size) : (st.setNode i n).get i = .ok n := by
  have hs : (st.setNode i n).slots[i]? = some { st.slots[i] with node := n } := by
    rw [getElem?_setNode, if_pos rfl, Array.getElem?_eq_getElem h]
    rfl
  exact get_eq hs

theorem get_setNode_of_ne (h : j ≠ i) : (st.setNode j n).get i = st.get i := by
  unfold get
  rw [getElem?_setNode, if_neg h]

theorem get_append_self : (st.append n).get st.size = .ok n :=
  get_eq (show (st.append n).slots[st.size]? = some { node := n } by
    rw [getElem?_append, if_pos rfl])

theorem get_append_of_ne (h : i ≠ st.size) : (st.append n).get i = st.get i := by
  unfold get
  rw [getElem?_append, if_neg h]

theorem outList_append (n : Node) (i : Nat) : (st.append n).outList i = st.outList i := by
  by_cases hi : i = st.size
  · subst hi
    rw [outList_of_size_le (Nat.le_refl _), outList_of_getElem? (by rw [getElem?_append, if_pos rfl])]
  · simp only [outList, getElem?_append, if_neg hi]

theorem outList_setNode (j : Nat) (n : Node) (i : Nat) : (st.setNode j n).outList i = st.outList i := by
  unfold outList
  rw [getElem?_setNode]
  by_cases h : j = i
  · rw [if_pos h]
    cases st.slots[i]? <;> rfl
  · rw [if_neg h]

theorem outList_appendEdge_self {src : Nat} (dst : Nat) (h : src < st.size) :
    (st.appendEdge src dst).outList src = st.outList src ++ [dst] := by
  simp [outList, getElem?_appendEdge, Array.getElem?_eq_getElem (show src < st.slots.size from h)]

theorem outList_appendEdge_of_ne {src : Nat} (dst : Nat) (h : src ≠ i) :
    (st.appendEdge src dst).outList i = st.outList i := by
  simp only [outList, getElem?_appendEdge, if_neg h]

end Changes

/-! The last edge into a kind, as edges are added. -/

section LastEdge

variable {i : Nat} {k : NodeKind}

theorem lastEdgeInto_of_append {extra : List Nat} (hout : st'.outList i = st.outList i ++ extra)
    (hx : ∀ j ∈ extra, st'.isKind k j = false)
    (hk : ∀ j ∈ st.outList i, st'.isKind k j = st.isKind k j) :
    st'.lastEdgeInto i k = st.lastEdgeInto i k := by
  have hnone : extra.reverse.find? (st'.isKind k) = none :=
    List.find?_eq_none.2 fun j hj => by simp [hx j (List.mem_reverse.1 hj)]
  rw [lastEdgeInto_eq, lastEdgeInto_eq, hout, List.reverse_append, List.find?_append, hnone,
    Option.none_or]
  exact List.find?_congr fun j hj => hk j (List.mem_reverse.1 hj)

theorem lastEdgeInto_of_push {d : Nat} (hout : st'.outList i = st.outList i ++ [d])
    (hd : st'.isKind k d = true) : st'.lastEdgeInto i k = some d := by
  rw [lastEdgeInto_eq, hout, List.reverse_append, List.find?_append]
  simp [hd]

theorem mem_outList_of_lastEdgeInto {j : Nat} (h : st.lastEdgeInto i k = some j) :
    j ∈ st.outList i :=
  List.mem_reverse.1 (List.mem_of_find?_eq_some h)

end LastEdge

/-! The links and the lanes. -/

/-- Node `v` of a processor served unit `u`, and `w` is the node that placement made. -/
structure Link (st : Store) (v u w : Nat) : Prop where
  served : st.lastEdgeInto v .unit = some u
  next : st.lastEdgeInto u .processor = some w
  before : v < w
  nodes : ∃ p un q, st.processorAt v = .ok p ∧ p.occupied = true ∧ st.unitAt u = .ok un ∧
    un.processor = some p.processor ∧ p.ready.le un.timing.ready = true ∧
    st.processorAt w = .ok q ∧ q.processor = p.processor ∧ q.ready = un.timing.finish

/-- The chains of the processors whose first nodes are `firsts`. -/
structure Lanes (st : Store) (firsts : Array Nat) : Prop where
  first : ∀ k (hk : k < firsts.size), ∃ p, st.processorAt firsts[k] = .ok p ∧ p.processor = k
  index : ∀ v p, st.processorAt v = .ok p → p.processor < firsts.size
  served : ∀ v p, st.processorAt v = .ok p → p.occupied = true → ∃ u w, st.Link v u w
  placed : ∀ u un, st.unitAt u = .ok un → un.isScheduled = true → ∃ v w, st.Link v u w
  made : ∀ w p, st.processorAt w = .ok p → w ∉ firsts →
    ∃ v u, st.Link v u w ∧ ∀ i, w ∈ st.outList i → i = u

theorem lanes_of_no_processor (h : ∀ v p, st.processorAt v ≠ .ok p)
    (hu : ∀ u un, st.unitAt u = .ok un → un.isScheduled = false) : st.Lanes #[] where
  first _ hk := absurd hk (Nat.not_lt_zero _)
  index v p hp := absurd hp (h v p)
  served v p hp := absurd hp (h v p)
  placed u un hun hs := by rw [hu u un hun] at hs; cases hs
  made w p hp := absurd hp (h w p)

theorem Link.transfer {v u w : Nat} (h : st.Link v u w)
    (hv : ∀ p, st.processorAt v = .ok p → st'.processorAt v = .ok p)
    (hu : ∀ un, st.unitAt u = .ok un → st'.unitAt u = .ok un)
    (hw : ∀ q, st.processorAt w = .ok q →
      ∃ q', st'.processorAt w = .ok q' ∧ q'.processor = q.processor ∧ q'.ready = q.ready)
    (hsv : st'.lastEdgeInto v .unit = st.lastEdgeInto v .unit)
    (hsu : st'.lastEdgeInto u .processor = st.lastEdgeInto u .processor) : st'.Link v u w where
  served := hsv.trans h.served
  next := hsu.trans h.next
  before := h.before
  nodes := by
    obtain ⟨p, un, q, hp, hocc, hun, hpu, hle, hq, hqp, hqr⟩ := h.nodes
    obtain ⟨q', hq', hqp', hqr'⟩ := hw q hq
    exact ⟨p, un, q', hv p hp, hocc, hu un hun, hpu, hle, hq', hqp'.trans hqp, hqr'.trans hqr⟩

/-! Changes of the store that the chains do not see. -/

/-- A change of the store that the chains of the processors do not see. -/
structure Inert (st st' : Store) : Prop where
  keeps : st.Keeps st'
  pinned : ∀ i n, st'.get i = .ok n → n.isPinned = true → st.get i = .ok n
  stays : ∀ i n, st.get i = .ok n → n.isPinned = true → st'.get i = .ok n
  edges : ∀ i, ∃ extra, st'.outList i = st.outList i ++ extra ∧
    ∀ j ∈ extra, j < st'.size ∧ st'.isKind .processor j = false ∧ st'.isKind .processor i = false

namespace Inert

variable {st₁ st₂ : Store}

@[refl] theorem refl (st : Store) : st.Inert st where
  keeps := .refl st
  pinned _ _ h _ := h
  stays _ _ h _ := h
  edges _ := ⟨[], by simp, nofun⟩

theorem size_le (h : st.Inert st') : st.size ≤ st'.size := by
  refine Nat.le_of_not_lt fun hlt => ?_
  obtain ⟨slot', hs', -⟩ := h.keeps st'.size _ (Array.getElem?_eq_getElem (show st'.size < st.slots.size from hlt))
  exact Nat.lt_irrefl _ (Array.getElem?_eq_some_iff.1 hs').1

theorem trans (h₁ : st.Inert st₁) (h₂ : st₁.Inert st₂) : st.Inert st₂ where
  keeps := h₁.keeps.trans h₂.keeps
  pinned i n h hn := h₁.pinned i n (h₂.pinned i n h hn) hn
  stays i n h hn := h₂.stays i n (h₁.stays i n h hn) hn
  edges i := by
    obtain ⟨e₁, ho₁, hx₁⟩ := h₁.edges i
    obtain ⟨e₂, ho₂, hx₂⟩ := h₂.edges i
    refine ⟨e₁ ++ e₂, by rw [ho₂, ho₁, List.append_assoc], fun j hj => ?_⟩
    rcases List.mem_append.1 hj with hj | hj
    · obtain ⟨hlt, hk, hi⟩ := hx₁ j hj
      -- the source has an edge in the middle store, so it is one of its vertices
      have hsrc : i < st₁.size := by
        cases hs : st₁.slots[i]? with
        | none =>
          have h0 : st₁.outList i = [] := by simp [outList, hs]
          rw [h0] at ho₁
          rw [(List.append_eq_nil_iff.1 ho₁.symm).2] at hj
          cases hj
        | some slot => exact (Array.getElem?_eq_some_iff.1 hs).1
      exact ⟨Nat.lt_of_lt_of_le hlt h₂.size_le, (h₂.keeps.isKind hlt).trans hk,
        (h₂.keeps.isKind hsrc).trans hi⟩
    · exact hx₂ j hj

theorem lastEdgeInto (h : st.Inert st') (hc : st.Closed) {i : Nat} {k : NodeKind}
    (hk : k = .processor ∨ st'.isKind .processor i = true) :
    st'.lastEdgeInto i k = st.lastEdgeInto i k := by
  obtain ⟨extra, hout, hx⟩ := h.edges i
  refine lastEdgeInto_of_append hout (fun j hj => ?_)
    fun j hj => h.keeps.isKind (hc.lt_of_mem_outList hj)
  obtain ⟨-, hkj, hki⟩ := hx j hj
  rcases hk with rfl | hv
  · exact hkj
  · rw [hv] at hki
    cases hki

theorem processorAt (h : st.Inert st') {v : Nat} {p : ProcessorNode}
    (hp : st.processorAt v = .ok p) : st'.processorAt v = .ok p :=
  processorAt_eq_ok.2 (h.stays v _ (processorAt_eq_ok.1 hp) rfl)

theorem processorAt' (h : st.Inert st') {v : Nat} {p : ProcessorNode}
    (hp : st'.processorAt v = .ok p) : st.processorAt v = .ok p :=
  processorAt_eq_ok.2 (h.pinned v _ (processorAt_eq_ok.1 hp) rfl)

theorem unitAt (h : st.Inert st') {u : Nat} {un : UnitNode} (hu : st.unitAt u = .ok un)
    (hs : un.isScheduled = true) : st'.unitAt u = .ok un :=
  unitAt_eq_ok.2 (h.stays u _ (unitAt_eq_ok.1 hu) hs)

theorem unitAt' (h : st.Inert st') {u : Nat} {un : UnitNode} (hu : st'.unitAt u = .ok un)
    (hs : un.isScheduled = true) : st.unitAt u = .ok un :=
  unitAt_eq_ok.2 (h.pinned u _ (unitAt_eq_ok.1 hu) hs)

theorem link (h : st.Inert st') (hc : st.Closed) {v u w : Nat} (hl : st.Link v u w) :
    st'.Link v u w := by
  obtain ⟨p, un, q, hp, -, hun, hpu, -⟩ := hl.nodes
  have hsched : un.isScheduled = true := by simp [UnitNode.isScheduled, hpu]
  refine hl.transfer (fun _ hp' => h.processorAt hp')
    (fun un' hu' => by rw [hun] at hu'; cases hu'; exact h.unitAt hun hsched)
    (fun q hq => ⟨q, h.processorAt hq, rfl, rfl⟩) (h.lastEdgeInto hc (.inr ?_))
    (h.lastEdgeInto hc (.inl rfl))
  rw [isKind_of_get (processorAt_eq_ok.1 (h.processorAt hp))]
  rfl

end Inert

theorem Lanes.inert {F : Array Nat} (hl : st.Lanes F) (hi : st.Inert st') (hc : st.Closed) :
    st'.Lanes F where
  first k hk := by
    obtain ⟨p, hp, hk'⟩ := hl.first k hk
    exact ⟨p, hi.processorAt hp, hk'⟩
  index v p hp := hl.index v p (hi.processorAt' hp)
  served v p hp hocc := by
    obtain ⟨u, w, hlink⟩ := hl.served v p (hi.processorAt' hp) hocc
    exact ⟨u, w, hi.link hc hlink⟩
  placed u un hu hs := by
    obtain ⟨v, w, hlink⟩ := hl.placed u un (hi.unitAt' hu hs) hs
    exact ⟨v, w, hi.link hc hlink⟩
  made w p hp hw := by
    obtain ⟨v, u, hlink, hin⟩ := hl.made w p (hi.processorAt' hp) hw
    refine ⟨v, u, hi.link hc hlink, fun i hi' => hin i ?_⟩
    obtain ⟨extra, hout, hx⟩ := hi.edges i
    rw [hout] at hi'
    rcases List.mem_append.1 hi' with hi' | hi'
    · exact hi'
    · have := (hx w hi').2.1
      rw [isKind_of_get (processorAt_eq_ok.1 hp)] at this
      cases this

/-! The changes of the steps that the chains do not see. -/

section Primitive

variable {i : Nat} {n : Node}

theorem inert_append (hn : n.isPinned = false) : st.Inert (st.append n) where
  keeps := .append n
  pinned j n' h hp := by
    obtain ⟨out, hs⟩ := slot_of_get h
    rw [getElem?_append] at hs
    split at hs
    · cases hs
      rw [hn] at hp
      cases hp
    · exact get_eq hs
  stays j n' h _ := by
    obtain ⟨out, hs⟩ := slot_of_get h
    have hj : j ≠ st.size := Nat.ne_of_lt (Array.getElem?_eq_some_iff.1 hs).1
    have hs' : (st.append n).slots[j]? = some ⟨n', out⟩ := by rw [getElem?_append, if_neg hj, hs]
    exact get_eq hs'
  edges j := by
    refine ⟨[], ?_, nofun⟩
    rw [List.append_nil]
    by_cases hj : j = st.size
    · subst hj
      rw [outList_of_size_le (Nat.le_refl _), outList_of_getElem? (by rw [getElem?_append, if_pos rfl])]
    · simp only [outList, getElem?_append, if_neg hj]

/-- Rewriting a vertex that is not pinned with one of its kind that is not pinned either. -/
theorem inert_setNode (hn : n.isPinned = false)
    (hold : ∀ slot, st.slots[i]? = some slot → slot.node.kind = n.kind ∧ slot.node.isPinned = false) :
    st.Inert (st.setNode i n) where
  keeps := .setNode fun slot hs => (hold slot hs).1
  pinned j n' h hp := by
    obtain ⟨out, hs⟩ := slot_of_get h
    rw [getElem?_setNode] at hs
    split at hs
    · obtain ⟨slot, -, hslot⟩ := Option.map_eq_some_iff.1 hs
      cases hslot
      rw [hn] at hp
      cases hp
    · exact get_eq hs
  stays j n' h hp := by
    obtain ⟨out, hs⟩ := slot_of_get h
    by_cases hij : i = j
    · subst hij
      rw [(hold _ hs).2] at hp
      cases hp
    · have hs' : (st.setNode i n).slots[j]? = some ⟨n', out⟩ := by rw [getElem?_setNode, if_neg hij, hs]
      exact get_eq hs'
  edges j := by
    refine ⟨[], ?_, nofun⟩
    rw [List.append_nil]
    simp only [outList, getElem?_setNode]
    split
    · cases st.slots[j]? <;> rfl
    · rfl

/-- An edge between two vertices, neither of them a processor node. -/
theorem inert_appendEdge {src dst : Nat} (hd : dst < st.size)
    (hsrc : st.isKind .processor src = false) (hdst : st.isKind .processor dst = false) :
    st.Inert (st.appendEdge src dst) where
  keeps := .appendEdge src dst
  pinned j n' h _ := by
    obtain ⟨out, hs⟩ := slot_of_get h
    rw [getElem?_appendEdge] at hs
    split at hs
    · obtain ⟨slot, hs', hslot⟩ := Option.map_eq_some_iff.1 hs
      cases hslot
      exact get_eq hs'
    · exact get_eq hs
  stays j n' h _ := by
    obtain ⟨out, hs⟩ := slot_of_get h
    by_cases hj : src = j
    · have hs' : (st.appendEdge src dst).slots[j]? = some ⟨n', out.push dst⟩ := by
        simp only [getElem?_appendEdge, if_pos hj, hs, Option.map_some]
      exact get_eq hs'
    · have hs' : (st.appendEdge src dst).slots[j]? = some ⟨n', out⟩ := by
        rw [getElem?_appendEdge, if_neg hj, hs]
      exact get_eq hs'
  edges j := by
    have hk : ∀ m, (st.appendEdge src dst).isKind .processor m = st.isKind .processor m := by
      intro m
      unfold isKind
      rw [getElem?_appendEdge]
      by_cases hm : src = m
      · rw [if_pos hm]
        cases st.slots[m]? <;> rfl
      · rw [if_neg hm]
    by_cases hj : src = j
    · subst hj
      cases hs : st.slots[src]? with
      | none =>
        refine ⟨[], ?_, nofun⟩
        simp [outList, getElem?_appendEdge, hs]
      | some slot =>
        refine ⟨[dst], ?_, ?_⟩
        · simp [outList, getElem?_appendEdge, hs]
        · intro m hm
          rw [List.mem_singleton.1 hm, size_appendEdge, hk, hk]
          exact ⟨hd, hdst, hsrc⟩
    · refine ⟨[], ?_, nofun⟩
      simp [outList, getElem?_appendEdge, hj]

end Primitive

/-! The two changes that touch the chains. -/

section Touch

variable {F : Array Nat}

/-- A new first node: a free node of the next processor, with an edge to it from a vertex that
is not pinned. -/
theorem Lanes.addProcessor (hl : st.Lanes F) (hc : st.Closed) {src : Nat} {m : Node} {t : Double}
    (hsrc : st.get src = .ok m) (hm : m.isPinned = false) :
    ((st.append (.processor ⟨F.size, t, false⟩)).appendEdge src st.size).Lanes (F.push st.size) := by
  set st₂ := (st.append (.processor ⟨F.size, t, false⟩)).appendEdge src st.size
  have hkeeps : st.Keeps st₂ := (Keeps.append _).trans (.appendEdge _ _)
  have hview : ∀ {i}, i < st.size → st₂.get i = st.get i := fun hi => by
    rw [get_appendEdge, get_append_of_ne (Nat.ne_of_lt hi)]
  have hnew : st₂.processorAt st.size = .ok ⟨F.size, t, false⟩ := by
    rw [processorAt_eq_ok, get_appendEdge, get_append_self]
  -- a pinned vertex is not the source of the new edge, so its last edges stay
  have hpin : ∀ {i m'}, st.get i = .ok m' → m'.isPinned = true → i ≠ src := by
    rintro i m' hm' hp rfl
    rw [hsrc] at hm'
    cases hm'
    rw [hm] at hp
    cases hp
  have hedges : ∀ {i} k, i ≠ src → st₂.lastEdgeInto i k = st.lastEdgeInto i k := by
    intro i k hi
    have hout : st₂.outList i = st.outList i ++ [] := by
      rw [List.append_nil, outList_appendEdge_of_ne _ (Ne.symm hi), outList_append]
    exact lastEdgeInto_of_append hout nofun fun _ hj => hkeeps.isKind (hc.lt_of_mem_outList hj)
  have hlink : ∀ {v u w}, st.Link v u w → st₂.Link v u w := by
    intro v u w h
    obtain ⟨p, un, q, hp, -, hun, hpu, -, hq, -⟩ := h.nodes
    have hgv := processorAt_eq_ok.1 hp
    have hgu := unitAt_eq_ok.1 hun
    have hsched : un.isScheduled = true := by simp [UnitNode.isScheduled, hpu]
    refine h.transfer (fun _ h' => by rwa [processorAt_congr (hview (lt_size_of_get hgv))])
      (fun _ h' => by rwa [unitAt_congr (hview (lt_size_of_get hgu))])
      (fun q' h' => ⟨q', by rwa [processorAt_congr (hview (lt_size_of_get (processorAt_eq_ok.1 h')))],
        rfl, rfl⟩) (hedges _ (hpin hgv rfl)) (hedges _ (hpin hgu hsched))
  have hold : ∀ {v p}, st₂.processorAt v = .ok p → v ≠ st.size → st.processorAt v = .ok p := by
    intro v p h hv
    have hlt : v < st₂.size := lt_size_of_get (processorAt_eq_ok.1 h)
    simp only [st₂, size_appendEdge, size_append] at hlt
    rwa [← processorAt_congr (hview (by omega))]
  refine ⟨fun k hk => ?_, fun v p hp => ?_, fun v p hp hocc => ?_, fun u un hu hs => ?_,
    fun w p hp hw => ?_⟩
  · rw [Array.getElem_push]
    split
    · rename_i hk'
      obtain ⟨p, hp, hpk⟩ := hl.first k hk'
      exact ⟨p, by rwa [processorAt_congr (hview (lt_size_of_get (processorAt_eq_ok.1 hp)))], hpk⟩
    · rename_i hk'
      rw [Array.size_push] at hk
      exact ⟨_, hnew, by simp only; omega⟩
  · rw [Array.size_push]
    by_cases hv : v = st.size
    · subst hv
      rw [hnew] at hp
      cases hp
      exact Nat.lt_succ_self _
    · exact Nat.lt_succ_of_lt (hl.index v p (hold hp hv))
  · by_cases hv : v = st.size
    · subst hv
      rw [hnew] at hp
      cases hp
      cases hocc
    · obtain ⟨u, w, h⟩ := hl.served v p (hold hp hv) hocc
      exact ⟨u, w, hlink h⟩
  · have hlt : u < st.size := by
      have := lt_size_of_get (unitAt_eq_ok.1 hu)
      by_contra hge
      have hu' : u = st.size := by simp only [st₂, size_appendEdge, size_append] at this; omega
      rw [hu', unitAt_congr (get_appendEdge _ _ _), unitAt, get_append_self] at hu
      cases hu
    obtain ⟨v, w, h⟩ := hl.placed u un (by rwa [← unitAt_congr (hview hlt)]) hs
    exact ⟨v, w, hlink h⟩
  · have hv : w ≠ st.size := fun h => hw (h ▸ Array.mem_push_self)
    obtain ⟨v, u, h, hin⟩ := hl.made w p (hold hp hv) fun h => hw (Array.mem_push_of_mem _ h)
    refine ⟨v, u, hlink h, fun i hi => hin i ?_⟩
    by_cases his : i = src
    · subst his
      rw [outList_appendEdge_self _ (by simpa using Nat.lt_succ_of_lt (lt_size_of_get hsrc)),
        outList_append] at hi
      rcases List.mem_append.1 hi with hi | hi
      · exact hi
      · exact absurd (List.mem_singleton.1 hi) hv
    · rwa [outList_appendEdge_of_ne _ (Ne.symm his), outList_append] at hi

/-- A placement of unit `u` on the free node `p`, before readiness spreads. -/
def placing (st : Store) (p u : Nat) (node : ProcessorNode) (un : UnitNode) : Store :=
  ((((st.appendEdge p u).setNode p (.processor { node with occupied := true })).setNode u
    (.unit (Run.placedUnit un node))).append
      (.processor ⟨node.processor, (Run.placedUnit un node).timing.finish, false⟩)).appendEdge u st.size

section Placing

variable {p u : Nat} {node : ProcessorNode} {un : UnitNode}

@[simp] theorem size_placing : (st.placing p u node un).size = st.size + 1 := by
  simp [placing]

theorem get_placing (hp : p < st.size) (hu : u < st.size) (i : Nat) :
    (st.placing p u node un).get i =
      if i = st.size then .ok (.processor ⟨node.processor, (Run.placedUnit un node).timing.finish, false⟩)
      else if i = u then .ok (.unit (Run.placedUnit un node))
      else if i = p then .ok (.processor { node with occupied := true })
      else st.get i := by
  have hsize : (((st.appendEdge p u).setNode p (.processor { node with occupied := true })).setNode u
      (.unit (Run.placedUnit un node))).size = st.size := by simp
  unfold placing
  rw [get_appendEdge]
  split_ifs with h₀ h₁ h₂
  · rw [h₀, ← hsize]
    exact get_append_self
  · rw [get_append_of_ne (by rw [hsize]; exact h₀), h₁]
    exact get_setNode_self (by simpa using hu)
  · rw [get_append_of_ne (by rw [hsize]; exact h₀), get_setNode_of_ne (Ne.symm h₁), h₂]
    exact get_setNode_self (by simpa using hp)
  · rw [get_append_of_ne (by rw [hsize]; exact h₀), get_setNode_of_ne (Ne.symm h₁),
      get_setNode_of_ne (Ne.symm h₂), get_appendEdge]

theorem outList_placing (hp : p < st.size) (hu : u < st.size) (hpu : p ≠ u) (i : Nat) :
    (st.placing p u node un).outList i =
      if i = p then st.outList p ++ [u]
      else if i = u then st.outList u ++ [st.size]
      else st.outList i := by
  unfold placing
  split_ifs with h₁ h₂
  · rw [outList_appendEdge_of_ne _ (h₁ ▸ Ne.symm hpu), outList_append, outList_setNode,
      outList_setNode, h₁, outList_appendEdge_self _ hp]
  · rw [h₂, outList_appendEdge_self _ (by simpa using Nat.lt_succ_of_lt hu), outList_append,
      outList_setNode, outList_setNode, outList_appendEdge_of_ne _ hpu]
  · rw [outList_appendEdge_of_ne _ (Ne.symm h₂), outList_append, outList_setNode, outList_setNode,
      outList_appendEdge_of_ne _ (Ne.symm h₁)]

/-- A placement keeps the lanes: the free node `p` becomes occupied and links to the unit `u`,
which links to the processor's new free node; every other link stays. -/
theorem Lanes.placing (hl : st.Lanes F) (hc : st.Closed) (hp : st.processorAt p = .ok node)
    (hfree : node.occupied = false) (hu : st.unitAt u = .ok un) (hsch : un.processor = none)
    (hle : node.ready.le (Run.placedUnit un node).timing.ready = true) :
    (st.placing p u node un).Lanes F := by
  have hgp := processorAt_eq_ok.1 hp
  have hgu := unitAt_eq_ok.1 hu
  have hpl := lt_size_of_get hgp
  have hul := lt_size_of_get hgu
  have hpu : p ≠ u := by
    rintro rfl
    rw [hgp] at hgu
    cases hgu
  have hget := @get_placing st p u node un hpl hul
  have hout := @outList_placing st p u node un hpl hul hpu
  set st' := st.placing p u node un
  -- every vertex keeps its kind, so the ends of the old edges do
  have hkind : ∀ {j} k, j < st.size → st'.isKind k j = st.isKind k j := by
    intro j k hj
    have h₀ : j ≠ st.size := Nat.ne_of_lt hj
    by_cases h₁ : j = u
    · subst h₁
      have hg : st'.get j = .ok (.unit (Run.placedUnit un node)) := by
        rw [hget, if_neg h₀, if_pos rfl]
      exact (isKind_of_get hg).trans (isKind_of_get hgu).symm
    by_cases h₂ : j = p
    · subst h₂
      have hg : st'.get j = .ok (.processor { node with occupied := true }) := by
        rw [hget, if_neg h₀, if_neg h₁, if_pos rfl]
      exact (isKind_of_get hg).trans (isKind_of_get hgp).symm
    · unfold isKind
      have hg : st'.get j = st.get j := by rw [hget, if_neg h₀, if_neg h₁, if_neg h₂]
      obtain ⟨slot, hs⟩ : ∃ slot, st.slots[j]? = some slot := ⟨_, Array.getElem?_eq_getElem hj⟩
      obtain ⟨out, hs'⟩ := slot_of_get (hg.trans (get_eq hs))
      rw [hs, hs']
  have hedge : ∀ {i} k, i ≠ p → i ≠ u → st'.lastEdgeInto i k = st.lastEdgeInto i k := by
    intro i k h₁ h₂
    have hsame : st'.outList i = st.outList i ++ [] := by
      rw [hout, if_neg h₁, if_neg h₂, List.append_nil]
    exact lastEdgeInto_of_append hsame nofun fun _ hj => hkind k (hc.lt_of_mem_outList hj)
  have hnew : st'.processorAt st.size =
      .ok ⟨node.processor, (Run.placedUnit un node).timing.finish, false⟩ := by
    rw [processorAt_eq_ok, hget, if_pos rfl]
  have hocc : st'.processorAt p = .ok { node with occupied := true } := by
    rw [processorAt_eq_ok, hget, if_neg (Nat.ne_of_lt hpl), if_neg hpu, if_pos rfl]
  have hunit : st'.unitAt u = .ok (Run.placedUnit un node) := by
    rw [unitAt_eq_ok, hget, if_neg (Nat.ne_of_lt hul), if_pos rfl]
  have hsame : ∀ {i}, i ≠ st.size → i ≠ u → i ≠ p → st'.get i = st.get i := by
    intro i h₀ h₁ h₂
    rw [hget, if_neg h₀, if_neg h₁, if_neg h₂]
  have hlinkNew : st'.Link p u st.size := by
    have houtP : st'.outList p = st.outList p ++ [u] := by rw [hout, if_pos rfl]
    have houtU : st'.outList u = st.outList u ++ [st.size] := by
      rw [hout, if_neg (Ne.symm hpu), if_pos rfl]
    refine ⟨lastEdgeInto_of_push houtP ?_, lastEdgeInto_of_push houtU ?_, hpl,
      ⟨_, _, _, hocc, rfl, hunit, rfl, hle, hnew, rfl, rfl⟩⟩
    · rw [isKind_of_get (unitAt_eq_ok.1 hunit)]
      rfl
    · rw [isKind_of_get (processorAt_eq_ok.1 hnew)]
      rfl
  -- every other link stays: its nodes are neither the new one nor the unit, and its first node
  -- is occupied, so it is not `p`
  have hlink : ∀ {v u' w}, st.Link v u' w → st'.Link v u' w := by
    intro v u' w h
    obtain ⟨pv, un', q, hpv, hoccv, hun', hpu', -, hq, -⟩ := h.nodes
    have hgv := processorAt_eq_ok.1 hpv
    have hgu' := unitAt_eq_ok.1 hun'
    have hgw := processorAt_eq_ok.1 hq
    have hvp : v ≠ p := by
      rintro rfl
      rw [hgp] at hgv
      cases hgv
      rw [hfree] at hoccv
      cases hoccv
    have hvu : v ≠ u := by
      rintro rfl
      rw [hgu] at hgv
      cases hgv
    have hu'u : u' ≠ u := by
      rintro rfl
      rw [hgu] at hgu'
      cases hgu'
      rw [hsch] at hpu'
      cases hpu'
    have hu'p : u' ≠ p := by
      rintro rfl
      rw [hgp] at hgu'
      cases hgu'
    have hwu : w ≠ u := by
      rintro rfl
      rw [hgu] at hgw
      cases hgw
    refine h.transfer
      (fun _ h' => by rwa [processorAt_congr (hsame (Nat.ne_of_lt (lt_size_of_get hgv)) hvu hvp)])
      (fun _ h' => by rwa [unitAt_congr (hsame (Nat.ne_of_lt (lt_size_of_get hgu')) hu'u hu'p)])
      (fun q' h' => ?_) (hedge _ hvp hvu) (hedge _ hu'p hu'u)
    by_cases hwp : w = p
    · subst hwp
      rw [hp] at h'
      cases h'
      exact ⟨_, hocc, rfl, rfl⟩
    · exact ⟨q', by rwa [processorAt_congr (hsame (Nat.ne_of_lt (lt_size_of_get hgw)) hwu hwp)], rfl, rfl⟩
  have hold : ∀ {v q}, st'.processorAt v = .ok q → v ≠ st.size →
      ∃ q₀, st.processorAt v = .ok q₀ ∧ q₀.processor = q.processor ∧ (v ≠ p → q₀ = q) := by
    intro v q h hv
    by_cases hvu : v = u
    · subst hvu
      rw [processorAt_eq_ok, hget, if_neg (Nat.ne_of_lt hul), if_pos rfl] at h
      cases h
    by_cases hvp : v = p
    · subst hvp
      rw [hocc] at h
      cases h
      exact ⟨node, hp, rfl, fun h => absurd rfl h⟩
    · exact ⟨q, by rwa [← processorAt_congr (hsame hv hvu hvp)], rfl, fun _ => rfl⟩
  refine ⟨fun k hk => ?_, fun v q hq => ?_, fun v q hq hoccq => ?_, fun u'' un'' hu'' hs => ?_,
    fun w q hq hw => ?_⟩
  · obtain ⟨pk, hpk, hpkk⟩ := hl.first k hk
    have hlt := lt_size_of_get (processorAt_eq_ok.1 hpk)
    by_cases hkp : F[k] = p
    · rw [hkp] at hpk ⊢
      rw [hp] at hpk
      cases hpk
      exact ⟨_, hocc, hpkk⟩
    · have hku : F[k] ≠ u := by
        intro h
        have hg := processorAt_eq_ok.1 hpk
        rw [h, hgu] at hg
        cases hg
      exact ⟨pk, by rwa [processorAt_congr (hsame (Nat.ne_of_lt hlt) hku hkp)], hpkk⟩
  · by_cases hv : v = st.size
    · subst hv
      rw [hnew] at hq
      cases hq
      exact hl.index p node hp
    · obtain ⟨q₀, hq₀, hqq, -⟩ := hold hq hv
      exact hqq ▸ hl.index v q₀ hq₀
  · by_cases hv : v = st.size
    · subst hv
      rw [hnew] at hq
      cases hq
      cases hoccq
    by_cases hvp : v = p
    · exact ⟨u, st.size, hvp ▸ hlinkNew⟩
    · obtain ⟨q₀, hq₀, -, hqq⟩ := hold hq hv
      obtain ⟨u', w, h⟩ := hl.served v q₀ hq₀ (hqq hvp ▸ hoccq)
      exact ⟨u', w, hlink h⟩
  · by_cases huu : u'' = u
    · exact ⟨p, st.size, huu ▸ hlinkNew⟩
    have h₀ : u'' ≠ st.size := by
      rintro rfl
      rw [unitAt_eq_ok, hget, if_pos rfl] at hu''
      cases hu''
    have h₂ : u'' ≠ p := by
      rintro rfl
      rw [unitAt_eq_ok, processorAt_eq_ok.1 hocc] at hu''
      cases hu''
    obtain ⟨v, w, h⟩ := hl.placed u'' un'' (by rwa [← unitAt_congr (hsame h₀ huu h₂)]) hs
    exact ⟨v, w, hlink h⟩
  · have hin : ∀ {w i}, w ≠ u → w ≠ st.size → w ∈ st'.outList i → w ∈ st.outList i := by
      intro w i hwu hw₀ h
      rw [hout] at h
      split_ifs at h with h₁ h₂
      · rcases List.mem_append.1 h with h | h
        · exact h₁ ▸ h
        · exact absurd (List.mem_singleton.1 h) hwu
      · rcases List.mem_append.1 h with h | h
        · exact h₂ ▸ h
        · exact absurd (List.mem_singleton.1 h) hw₀
      · exact h
    by_cases hv : w = st.size
    · subst hv
      refine ⟨p, u, hlinkNew, fun i hi => ?_⟩
      rw [hout] at hi
      split_ifs at hi with h₁ h₂
      · rcases List.mem_append.1 hi with hi | hi
        · exact absurd (hc.lt_of_mem_outList hi) (Nat.lt_irrefl _)
        · exact absurd (List.mem_singleton.1 hi) (Nat.ne_of_gt hul)
      · exact h₂
      · exact absurd (hc.lt_of_mem_outList hi) (Nat.lt_irrefl _)
    · have hwu : w ≠ u := by
        rintro rfl
        rw [processorAt_eq_ok, hget, if_neg hv, if_pos rfl] at hq
        cases hq
      obtain ⟨q₀, hq₀, -⟩ := hold hq hv
      obtain ⟨v, u', h, hin'⟩ := hl.made w q₀ hq₀ hw
      exact ⟨v, u', hlink h, fun i hi => hin' i (hin hwu hv hi)⟩

end Placing

end Touch

end Store

end ListScheduling
