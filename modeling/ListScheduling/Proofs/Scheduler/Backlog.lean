import ListScheduling.Proofs.Scheduler.Spreading
import ListScheduling.Proofs.Plan.Charting

/-!
Every release of a unit uses up an edge from a barrier into the unit.
-/
namespace ListScheduling

/-- A barrier that can still fire: not yet satisfied, or still awaiting an input. -/
def Node.live : Node → Bool
  | .barrier b => !b.satisfied || b.waiting != 0
  | _ => false

theorem Node.kind_of_live {n : Node} (h : n.live = true) : n.kind = .barrier := by
  cases n <;> first | rfl | cases h

theorem Node.live_eq_false {n : Node} (h : n.kind ≠ .barrier) : n.live = false := by
  cases hl : n.live
  · rfl
  · exact absurd (Node.kind_of_live hl) h

theorem ReadyQueue.size_of_pop? {q q' : ReadyQueue SortedHeap} {u : Nat} (h : q.pop? = some (u, q')) :
    q'.size + 1 = q.size := by
  cases hq : q.entries with
  | nil => rw [ReadyQueue.pop?_of_entries_nil hq] at h; cases h
  | cons e rest =>
    rw [ReadyQueue.pop?_of_entries_cons hq] at h
    cases h
    simp [ReadyQueue.size_eq_length, hq]

namespace Store

/-- The edges of a vertex into units. -/
def unitOut (st : Store) (slot : Slot) : Nat := slot.out.toList.countP (st.isKind .unit)

/-- The edges into units of the vertices whose nodes `sel` selects. -/
def releasesOf (st : Store) (sel : Node → Bool) : Nat :=
  st.total fun slot => if sel slot.node then st.unitOut slot else 0

/-- The edges from barriers into units. -/
def releaseEdges (st : Store) : Nat := st.releasesOf (·.kind == .barrier)

/-- The edges into units of the barriers that can still fire. -/
def liveReleases (st : Store) : Nat := st.releasesOf Node.live

/-- The edges of a stack from a barrier into a unit: taking one queues the unit. -/
def stackReleases (st : Store) (stack : List (Nat × Nat)) : Nat :=
  stack.countP fun e => st.isKind .barrier e.1 && st.isKind .unit e.2

variable {st : Store}

/-! Kinds after a change: a rewrite keeps them, an edge does not touch them, and a new vertex adds
one. -/

theorem isKind_setNode {i : Nat} {slot : Slot} (h : st.slots[i]? = some slot) {n : Node}
    (hk : n.kind = slot.node.kind) : (st.setNode i n).isKind = st.isKind := by
  funext k j
  unfold isKind
  rw [getElem?_setNode]
  by_cases hij : i = j
  · subst hij
    rw [if_pos rfl, h]
    simp [hk]
  · rw [if_neg hij]

theorem isKind_appendEdge (src dst : Nat) : (st.appendEdge src dst).isKind = st.isKind := by
  funext k j
  unfold isKind
  rw [getElem?_appendEdge]
  by_cases h : src = j
  · rw [if_pos h]
    cases st.slots[j]? <;> rfl
  · rw [if_neg h]

theorem isKind_append_of_lt (n : Node) {k : NodeKind} {j : Nat} (hj : j < st.size) :
    (st.append n).isKind k j = st.isKind k j := by
  unfold isKind
  rw [getElem?_append, if_neg (Nat.ne_of_lt hj)]

theorem Closed.lt_of_mem (hc : st.Closed) {slot : Slot} (hs : slot ∈ st.slots.toList) {d : Nat}
    (hd : d ∈ slot.out) : d < st.size := by
  obtain ⟨i, hi⟩ := Array.mem_iff_getElem?.1 (Array.mem_toList_iff.1 hs)
  exact hc i slot hi d hd

/-! The edges into units, after each change. -/

theorem unitOut_push (slot : Slot) (dst : Nat) :
    st.unitOut { slot with out := slot.out.push dst } =
      st.unitOut slot + if st.isKind .unit dst then 1 else 0 := by
  simp [unitOut, Array.toList_push, List.countP_append]

theorem releasesOf_setNode {i : Nat} {slot : Slot} (h : st.slots[i]? = some slot) {n : Node}
    (hk : n.kind = slot.node.kind) (sel : Node → Bool) :
    (st.setNode i n).releasesOf sel + (if sel slot.node then st.unitOut slot else 0) =
      st.releasesOf sel + (if sel n then st.unitOut slot else 0) := by
  have hu : (st.setNode i n).unitOut = st.unitOut := by
    funext slot
    simp only [unitOut, isKind_setNode h hk]
  unfold releasesOf
  rw [hu]
  exact total_setNode _ h n

theorem releasesOf_appendEdge {src : Nat} {slot : Slot} (h : st.slots[src]? = some slot)
    (dst : Nat) (sel : Node → Bool) :
    (st.appendEdge src dst).releasesOf sel =
      st.releasesOf sel + if sel slot.node && st.isKind .unit dst then 1 else 0 := by
  have hu : (st.appendEdge src dst).unitOut = st.unitOut := by
    funext slot
    simp only [unitOut, isKind_appendEdge]
  have ht := total_appendEdge (fun slot => if sel slot.node then st.unitOut slot else 0) h dst
  unfold releasesOf
  rw [hu]
  simp only [unitOut_push] at ht
  by_cases hs : sel slot.node <;> by_cases hd : st.isKind .unit dst <;> simp [hs, hd] at ht ⊢ <;>
    omega

theorem releasesOf_append (hc : st.Closed) (n : Node) (sel : Node → Bool) :
    (st.append n).releasesOf sel = st.releasesOf sel := by
  unfold releasesOf
  rw [total_append]
  have hnew : (if sel n then (st.append n).unitOut { node := n } else 0) = 0 := by
    split <;> simp [unitOut]
  rw [hnew, Nat.add_zero, total, total]
  congr 1
  refine List.map_congr_left fun slot hs => ?_
  have hu : (st.append n).unitOut slot = st.unitOut slot :=
    List.countP_congr fun d hd => by
      rw [isKind_append_of_lt n (hc.lt_of_mem hs (Array.mem_toList_iff.1 hd))]
  rw [hu]

theorem stackReleases_cons (a b : Nat) (rest : List (Nat × Nat)) :
    st.stackReleases ((a, b) :: rest) =
      st.stackReleases rest + if st.isKind .barrier a && st.isKind .unit b then 1 else 0 := by
  simp only [stackReleases, List.countP_cons]

theorem stackReleases_append (l₁ l₂ : List (Nat × Nat)) :
    st.stackReleases (l₁ ++ l₂) = st.stackReleases l₁ + st.stackReleases l₂ :=
  List.countP_append

theorem stackReleases_outEdges {b : Nat} {slot : Slot} (hb : st.slots[b]? = some slot)
    (hk : slot.node.kind = .barrier) :
    st.stackReleases (slot.out.toList.map (b, ·)) = st.unitOut slot := by
  have hbar : st.isKind .barrier b = true := by simp [isKind, hb, hk]
  simp [stackReleases, unitOut, List.countP_map, Function.comp_def, hbar]

theorem stackReleases_outEdges_of_ne {i : Nat} {slot : Slot} (hi : st.slots[i]? = some slot)
    (hk : slot.node.kind ≠ .barrier) : st.stackReleases (slot.out.toList.map (i, ·)) = 0 := by
  have hbar : st.isKind .barrier i = false := by simp [isKind, hi, hk]
  simp [stackReleases, List.countP_map, Function.comp_def, hbar]

theorem stackReleases_le_of_sublist {l₁ l₂ : List (Nat × Nat)} (h : l₁.Sublist l₂) :
    st.stackReleases l₁ ≤ st.stackReleases l₂ :=
  h.countP_le

theorem releaseEdges_setNode {i : Nat} {slot : Slot} (h : st.slots[i]? = some slot) {n : Node}
    (hk : n.kind = slot.node.kind) : (st.setNode i n).releaseEdges = st.releaseEdges := by
  have hr := releasesOf_setNode h hk (·.kind == .barrier)
  simp only [hk] at hr
  unfold releaseEdges
  omega

theorem liveReleases_setNode {i : Nat} {slot : Slot} (h : st.slots[i]? = some slot) {n : Node}
    (hk : n.kind = slot.node.kind) :
    (st.setNode i n).liveReleases + (if slot.node.live then st.unitOut slot else 0) =
      st.liveReleases + (if n.live then st.unitOut slot else 0) :=
  releasesOf_setNode h hk Node.live

theorem stackReleases_setNode {i : Nat} {slot : Slot} (h : st.slots[i]? = some slot) {n : Node}
    (hk : n.kind = slot.node.kind) : (st.setNode i n).stackReleases = st.stackReleases := by
  funext stack
  simp only [stackReleases, isKind_setNode h hk]

theorem releases_setNode {i : Nat} {slot : Slot} {n : Node} (h : st.slots[i]? = some slot)
    (hk : n.kind = slot.node.kind) :
    (st.setNode i n).releaseEdges = st.releaseEdges ∧
      (st.setNode i n).stackReleases = st.stackReleases ∧
      (st.setNode i n).liveReleases + (if slot.node.live then st.unitOut slot else 0) =
        st.liveReleases + (if n.live then st.unitOut slot else 0) :=
  ⟨releaseEdges_setNode h hk, stackReleases_setNode h hk, liveReleases_setNode h hk⟩

end Store

/-- The releases still to come or waiting for a processor: the units queued, the edges on the stack
from a barrier into a unit, and the edges into units of the barriers that can still fire. -/
def Scheduler.backlog (s : Scheduler) (stack : List (Nat × Nat)) : Nat :=
  s.queue.size + s.store.stackReleases stack + s.store.liveReleases

theorem Scheduler.backlog_le_of_sublist (s : Scheduler) {l₁ l₂ : List (Nat × Nat)}
    (h : l₁.Sublist l₂) : s.backlog l₁ ≤ s.backlog l₂ := by
  have hs : s.store.stackReleases l₁ ≤ s.store.stackReleases l₂ := Store.stackReleases_le_of_sublist h
  simp only [Scheduler.backlog]
  omega

theorem Scheduler.backlog_of_pop? {s : Scheduler} {u : Nat} {q : ReadyQueue SortedHeap}
    (h : s.queue.pop? = some (u, q)) (stack : List (Nat × Nat)) :
    ({ s with queue := q } : Scheduler).backlog stack + 1 = s.backlog stack := by
  have hs := ReadyQueue.size_of_pop? h
  simp only [Scheduler.backlog]
  omega

/-- A run while readiness spreads from `stack`: its edges lead to vertices, and its backlog is
at most the edges from barriers into units, each of which releases its unit once. -/
structure Scheduler.Backed (s : Scheduler) (stack : List (Nat × Nat)) : Prop where
  closed : s.store.Closed
  bounded : s.backlog stack ≤ s.store.releaseEdges

namespace Scheduler.Backed

variable {s s' : Scheduler} {stack : List (Nat × Nat)}

theorem congr (h : s.Backed stack) (hst : s'.store = s.store) (hq : s'.queue = s.queue) :
    s'.Backed stack where
  closed := hst ▸ h.closed
  bounded := by
    have hb := h.bounded
    simp only [backlog, hst, hq] at hb ⊢
    exact hb

theorem drop (h : s.Backed stack) {stack' : List (Nat × Nat)} (hsub : stack'.Sublist stack) :
    s.Backed stack' where
  closed := h.closed
  bounded := (s.backlog_le_of_sublist hsub).trans h.bounded

theorem setNode (h : s.Backed stack) {i : Nat} {slot : Slot} {n : Node}
    (hi : s.store.slots[i]? = some slot) (hst : s'.store = s.store.setNode i n)
    (hq : s'.queue = s.queue) (hk : n.kind = slot.node.kind) (hl : n.live = slot.node.live) :
    s'.Backed stack ∧ s'.backlog stack = s.backlog stack := by
  obtain ⟨hre, hsr, hlr⟩ := Store.releases_setNode hi hk
  rw [hl] at hlr
  have he : s'.backlog stack = s.backlog stack := by
    simp only [backlog, hst, hq, hsr]
    omega
  have hre' : s'.store.releaseEdges = s.store.releaseEdges := by rw [hst, hre]
  exact ⟨⟨hst ▸ h.closed.setNode _ _, he ▸ hre' ▸ h.bounded⟩, he⟩

theorem extend (h : s.Backed []) {l : List (Nat × Nat)} (hl : s.store.stackReleases l = 0) :
    s.Backed l ∧ s.backlog l = s.backlog [] := by
  have he : s.backlog l = s.backlog [] := by
    simp only [backlog, hl]
    rfl
  exact ⟨⟨h.closed, he ▸ h.bounded⟩, he⟩

theorem fire (h : s.Backed stack) {b : Nat} {bar c : BarrierNode} {out : Array Nat}
    (hb : s.store.slots[b]? = some ⟨.barrier bar, out⟩) (hlive : (Node.barrier bar).live = true)
    (hdead : (Node.barrier c).live = false) (hst : s'.store = s.store.setNode b (.barrier c))
    (hq : s'.queue = s.queue) :
    s'.Backed (out.toList.map (b, ·) ++ stack) ∧
      s'.backlog (out.toList.map (b, ·) ++ stack) = s.backlog stack := by
  obtain ⟨hre, hsr, hl⟩ := Store.releases_setNode (n := .barrier c) hb rfl
  have hout := Store.stackReleases_outEdges hb rfl
  simp only [hlive, hdead, if_true, Bool.false_eq_true, if_false, Nat.add_zero] at hl
  have he : s'.backlog (out.toList.map (b, ·) ++ stack) = s.backlog stack := by
    simp only [backlog, hst, hq, hsr, Store.stackReleases_append, hout]
    omega
  have hre' : s'.store.releaseEdges = s.store.releaseEdges := by rw [hst, hre]
  exact ⟨⟨hst ▸ h.closed.setNode _ _, he ▸ hre' ▸ h.bounded⟩, he⟩

theorem append (h : s.Backed []) (n : Node) (hst : s'.store = s.store.append n)
    (hq : s'.queue = s.queue) : s'.Backed [] ∧ s'.backlog [] = s.backlog [] := by
  have hl := Store.releasesOf_append h.closed n Node.live
  have hr := Store.releasesOf_append h.closed n (·.kind == .barrier)
  have he : s'.backlog [] = s.backlog [] := by
    simp only [backlog, Store.stackReleases, List.countP_nil, Store.liveReleases, hst, hq, hl]
  have hre : s'.store.releaseEdges = s.store.releaseEdges := by
    simp only [Store.releaseEdges, hst, hr]
  exact ⟨⟨hst ▸ h.closed.append n, he ▸ hre ▸ h.bounded⟩, he⟩

theorem appendEdge (h : s.Backed []) {src dst : Nat} {slot : Slot}
    (hsrc : s.store.slots[src]? = some slot) (hdst : dst < s.store.size)
    (hst : s'.store = s.store.appendEdge src dst) (hq : s'.queue = s.queue) :
    s'.Backed [] ∧
      s'.backlog [] = s.backlog [] + if slot.node.live && s.store.isKind .unit dst then 1 else 0 := by
  have hl := Store.releasesOf_appendEdge hsrc dst Node.live
  have hr := Store.releasesOf_appendEdge hsrc dst (·.kind == .barrier)
  have he : s'.backlog [] =
      s.backlog [] + if slot.node.live && s.store.isKind .unit dst then 1 else 0 := by
    simp only [backlog, Store.stackReleases, List.countP_nil, Store.liveReleases, hst, hq, hl]
    omega
  have hre : s'.store.releaseEdges = s.store.releaseEdges +
      if (slot.node.kind == .barrier) && s.store.isKind .unit dst then 1 else 0 := by
    simp only [Store.releaseEdges, hst, hr]
  refine ⟨⟨hst ▸ h.closed.appendEdge src hdst, ?_⟩, he⟩
  have hb := h.bounded
  rw [he, hre]
  by_cases hlive : slot.node.live = true
  · simp only [hlive, Node.kind_of_live hlive, beq_self_eq_true, Bool.true_and]
    split <;> omega
  · simp only [hlive, Bool.false_and, Bool.false_eq_true, if_false, Nat.add_zero]
    omega

end Scheduler.Backed

namespace Run

variable {s s' : Scheduler} {a b : Nat} {next rest : List (Nat × Nat)}

/-- Taking an edge that succeeds keeps the run backed for the edges it stacks, and never raises the
backlog. -/
theorem Taken.backed (h : s.Backed ((a, b) :: rest)) (ht : Taken s a b (.ok next, s')) :
    s'.Backed (next ++ rest) ∧ s'.backlog (next ++ rest) ≤ s.backlog ((a, b) :: rest) := by
  cases ht with
  | skip =>
    exact ⟨h.drop (List.sublist_cons_self _ _), s.backlog_le_of_sublist (List.sublist_cons_self _ _)⟩
  | @release bar out un ou ha hb =>
    have hbd := h.bounded
    have hcons : s.store.stackReleases ((a, b) :: rest) = s.store.stackReleases rest +
        if s.store.isKind .barrier a && s.store.isKind .unit b then 1 else 0 :=
      Store.stackReleases_cons a b rest
    obtain ⟨hre, hsr, hl⟩ := Store.releases_setNode
      (n := .unit { un with timing := un.timing.advance bar.timing.finish }) hb rfl
    have hrel : (s.store.isKind .barrier a && s.store.isKind .unit b) = true := by
      simp [Store.isKind_of_getElem? ha, Store.isKind_of_getElem? hb, Node.kind]
    have hq := ReadyQueue.size_push (q := s.queue) b (s.priority un.id)
    simp only [Node.live, hrel, if_true, Bool.false_eq_true, if_false, Nat.add_zero] at hl hcons
    simp only [Scheduler.backlog, ReadyQueue.size] at hbd hq
    refine ⟨⟨h.closed.setNode _ _, ?_⟩, ?_⟩ <;>
      simp only [Scheduler.backlog, ReadyQueue.size, List.nil_append, hre, hsr] <;> omega
  | @wait sa bar out ha hb hw =>
    have hw₀ : (bar.waiting != 0) = true := by simp; omega
    have hw₁ : (bar.waiting - 1 != 0) = true := by simp; omega
    refine And.imp_right (fun he => ?_) ((h.drop (List.sublist_cons_self _ _)).setNode hb
      (n := .barrier
        { bar with waiting := bar.waiting - 1, timing := bar.timing.advance sa.node.finishTime })
      rfl rfl rfl (by simp only [Node.live, hw₀, hw₁, Bool.or_true]))
    rw [List.nil_append, he]
    exact s.backlog_le_of_sublist (List.sublist_cons_self _ _)
  | @fire sa bar out ha hb hw =>
    have hlive : (Node.barrier bar).live = true := by simp [Node.live]; omega
    refine And.imp_right (fun he => ?_) ((h.drop (List.sublist_cons_self _ _)).fire hb hlive
      (c := { bar with waiting := 0, timing := bar.timing.advance sa.node.finishTime }.fire)
      rfl rfl rfl)
    rw [he]
    exact s.backlog_le_of_sublist (List.sublist_cons_self _ _)

/-- Readiness spreading from a backed stack ends backed, with the stack used up or abandoned,
whatever its outcome, and never raises the backlog. -/
theorem backed_drainWith (fuel : Nat) : ∀ {stack : List (Nat × Nat)} {s : Scheduler},
    s.Backed stack → ((drainWith fuel stack).run.run s).2.Backed [] ∧
      ((drainWith fuel stack).run.run s).2.backlog [] ≤ s.backlog stack := by
  -- by induction on the fuel, one edge a step, with the step lemma `Taken.backed`
  induction fuel with
  | zero =>
    intro stack s h
    rw [run_drainWith_zero]
    exact ⟨h.drop (List.nil_sublist _), s.backlog_le_of_sublist (List.nil_sublist _)⟩
  | succ fuel ih =>
    intro stack s h
    match stack with
    | [] =>
      rw [run_drainWith_nil]
      exact ⟨h, Nat.le_refl _⟩
    | (a, b) :: rest =>
      have ht := taken_propagate (s := s) (a := a) (b := b)
      rw [run_drainWith_cons]
      rcases hp : (propagate a b).run.run s with ⟨e | next, s₁⟩
      · rw [run_bind_error hp]
        rw [hp] at ht
        cases ht
        exact ⟨h.drop (List.nil_sublist _), s.backlog_le_of_sublist (List.nil_sublist _)⟩
      · rw [run_bind_ok hp]
        rw [hp] at ht
        obtain ⟨h₁, hle₁⟩ := ht.backed h
        obtain ⟨h₂, hle₂⟩ := ih h₁
        exact ⟨h₂, hle₂.trans hle₁⟩

end Run

/-- The law of list scheduling: the run stays backed, and its backlog does not grow. -/
def Scheduler.quiet : Run.Law where
  inv s := s.Backed []
  rel s s' := s'.Backed [] ∧ s'.backlog [] ≤ s.backlog []
  refl _ h := ⟨h, Nat.le_refl _⟩
  trans h₁ h₂ := ⟨h₂.1, h₂.2.trans h₁.2⟩
  inv_of_rel h := h.1
  poison h := ⟨h.1.congr rfl rfl, h.2⟩

theorem Scheduler.Backed.quiet_of {s s' : Scheduler} (h : s.Backed []) (hst : s'.store = s.store)
    (hq : s'.queue = s.queue) : quiet.rel s s' :=
  ⟨h.congr hst hq, by simp only [backlog, hst, hq, Nat.le_refl]⟩

/-- The law of every call: the run stays backed. -/
def Scheduler.backed : Run.Law where
  inv s := s.Backed []
  rel _ s' := s'.Backed []
  refl _ h := h
  trans _ h := h
  inv_of_rel h := h
  poison h := h.congr rfl rfl

namespace Run

open Scheduler

variable {α β : Type} {s : Scheduler}

theorem Law.modifyStore_bind_at {L : Law} {g : Store → Store} {f : Unit → Run β}
    (h : L.rel s { s with store := g s.store }) (hf : Respects L (f ())) :
    L.rel s ((modifyStore g >>= f).run.run s).2 := by
  rw [run_modifyStore_bind]
  exact L.trans h (hf _ (L.inv_of_rel h))

/-! Only an edge from a live barrier into a unit raises the backlog. -/

theorem quiet_modifyStats (f : Stats → Stats) : Respects quiet (modifyStats f) :=
  fun _ h => Scheduler.Backed.quiet_of h rfl rfl

theorem quiet_addVertex (n : Node) : Respects quiet (addVertex n) := by
  intro s (h : s.Backed [])
  by_cases hroom : s.store.size < s.store.limit
  · rw [run_addVertex n hroom]
    exact And.imp_right Nat.le_of_eq (h.append n rfl rfl)
  · rw [run_addVertex_full n (Nat.not_lt.1 hroom)]
    exact h.quiet_of rfl rfl

theorem backed_recordEdge (fk tk : NodeKind) (src dst : Nat) :
    Respects backed (recordEdge fk tk src dst) := by
  intro s (h : s.Backed [])
  cases hc : s.store.checkEdge fk tk src dst with
  | error e =>
    rw [run_recordEdge_error hc]
    exact h
  | ok _ =>
    obtain ⟨⟨_, hsrc, -⟩, ⟨_, hdst, -⟩⟩ := Store.slots_of_checkEdge hc
    rw [run_recordEdge hc]
    exact And.left (h.appendEdge hsrc (Array.getElem?_eq_some_iff.1 hdst).1 rfl rfl)

theorem quiet_recordEdge {fk tk : NodeKind} (hk : fk ≠ .barrier ∨ tk ≠ .unit) (src dst : Nat) :
    Respects quiet (recordEdge fk tk src dst) := by
  intro s (h : s.Backed [])
  cases hc : s.store.checkEdge fk tk src dst with
  | error e =>
    rw [run_recordEdge_error hc]
    exact quiet.refl s h
  | ok _ =>
    obtain ⟨⟨slot, hsrc, hks⟩, ⟨dslot, hdst, hkd⟩⟩ := Store.slots_of_checkEdge hc
    rw [run_recordEdge hc]
    refine And.imp_right (fun he => ?_) (h.appendEdge hsrc (Array.getElem?_eq_some_iff.1 hdst).1
      rfl rfl)
    have hz : (slot.node.live && s.store.isKind .unit dst) = false := by
      rcases hk with hk | hk
      · rw [Node.live_eq_false (hks ▸ hk), Bool.false_and]
      · rw [Store.isKind_of_getElem? hdst, hkd, Bool.and_eq_false_iff]
        exact .inr (by simpa using hk)
    rw [he, hz]
    exact Nat.le_refl _

theorem quiet_registerInput (b : Nat) : Respects quiet (registerInput b) := by
  refine Respects.get_bind fun s (h : s.Backed []) => ?_
  cases hb : s.store.barrierAt b with
  | error e => exact quiet.refl s h
  | ok bar =>
    simp only [run_liftStore_ok_bind]
    obtain ⟨out, hslot⟩ := Store.slot_of_barrierAt hb
    cases hs : bar.satisfied
    · simp only [Bool.false_eq_true, if_false, run_modifyStore]
      exact And.imp_right Nat.le_of_eq (h.setNode hslot rfl rfl rfl (by simp [Node.live, hs,
        BarrierNode.addInput]))
    · exact quiet.refl s h

theorem quiet_drain_of {s₁ : Scheduler} {stack : List (Nat × Nat)}
    (h : s₁.Backed stack ∧ s₁.backlog stack ≤ s.backlog []) :
    quiet.rel s ((drain stack).run.run s₁).2 := by
  rw [run_drain]
  obtain ⟨h₂, hle⟩ := backed_drainWith _ h.1
  exact ⟨h₂, hle.trans h.2⟩

theorem quiet_outEdges_drain {k : NodeKind} (hk : k ≠ .barrier) (i : Nat) :
    Respects quiet (outEdges k i >>= drain) := by
  intro s (h : s.Backed [])
  refine (respects_outEdges k i).bind_at h fun l s' hl _ => ?_
  obtain ⟨rfl, slot, hslot, hks, rfl⟩ := outEdges_ok hl
  exact quiet_drain_of (And.imp_right Nat.le_of_eq
    (h.extend (Store.stackReleases_outEdges_of_ne hslot (hks ▸ hk))))

theorem quiet_releaseFromRoot (rt b : Nat) : Respects quiet (releaseFromRoot rt b) := by
  intro s (h : s.Backed [])
  rcases run_releaseFromRoot_cases rt b s with ⟨e, hrun⟩ |
    ⟨t, ro, bar, out, -, hslot, hsat, hw, hrun⟩
  · rw [hrun]
    exact quiet.refl s h
  · rw [hrun, ← List.append_nil (out.toList.map (b, ·))]
    exact quiet_drain_of (And.imp_right Nat.le_of_eq (h.fire hslot (by simp [Node.live, hsat])
      (c := { bar with timing := bar.timing.advance t }.fire)
      (by simp [Node.live, BarrierNode.fire, hw]) rfl rfl))

theorem quiet_addOrderEdge {fk tk : NodeKind} (hk : fk ≠ .barrier ∨ tk ≠ .unit) (src dst : Nat) :
    Respects quiet (addOrderEdge fk tk src dst) :=
  (quiet_recordEdge hk src dst).guarded

theorem quiet_assign (p u : Nat) : Respects quiet (assign p u) := by
  refine Respects.get_bind fun s (h : s.Backed []) => ?_
  cases hp : s.store.processorAt p with
  | error e => exact quiet.refl s h
  | ok node =>
    simp only [run_liftStore_ok_bind]
    split
    · exact quiet.refl s h
    · obtain ⟨op, hslot⟩ := Store.slot_of_processorAt hp
      refine Law.modifyStore_bind_at (And.imp_right Nat.le_of_eq
        (h.setNode hslot rfl rfl rfl rfl)) (Respects.get_bind fun s₁ (h₁ : s₁.Backed []) => ?_)
      cases hu : s₁.store.unitAt u with
      | error e => exact quiet.refl s₁ h₁
      | ok un =>
        simp only [run_liftStore_ok_bind]
        split
        · exact quiet.refl s₁ h₁
        · obtain ⟨ou, hslot'⟩ := Store.slot_of_unitAt hu
          refine Law.modifyStore_bind_at (And.imp_right Nat.le_of_eq
            (h₁.setNode hslot' rfl rfl rfl rfl)) ?_
          exact (quiet_modifyStats _).bind fun _ => (quiet_addVertex _).bind fun _ =>
            (quiet_addOrderEdge (.inl (by decide)) _ _).bind fun _ =>
              quiet_outEdges_drain (by decide) u

theorem quiet_react (fk tk : NodeKind) (src dst : Nat) : Respects quiet (react fk tk src dst) := by
  unfold react
  split
  · exact quiet_registerInput dst
  · exact quiet_registerInput dst
  · exact quiet_releaseFromRoot src dst
  · exact quiet_assign src dst
  · exact Respects.pure _

theorem quiet_addEdge {fk tk : NodeKind} (hk : fk ≠ .barrier ∨ tk ≠ .unit) (src dst : Nat) :
    Respects quiet (addEdge fk tk src dst) :=
  ((quiet_recordEdge hk src dst).bind fun _ => quiet_react fk tk src dst).guarded

theorem quiet_dispatchWith (fuel : Nat) : Respects quiet (dispatchWith fuel) := by
  induction fuel with
  | zero => exact Respects.pure _
  | succ fuel ih =>
    refine Respects.get_bind fun s (h : s.Backed []) => ?_
    split
    · exact quiet.refl s h
    · rename_i u queue hpop
      simp only [run_set_bind]
      have hq : quiet.rel s { s with queue } := by
        have hlt := Nat.lt_of_succ_le (backlog_of_pop? hpop []).le
        exact ⟨⟨h.closed, hlt.le.trans h.bounded⟩, hlt.le⟩
      split
      · exact quiet.trans hq
          (((Respects.liftStore _).bind fun _ => Respects.throw _ : Respects quiet _) _ hq.1)
      · exact quiet.trans hq
          (((quiet_addEdge (.inl (by decide)) _ _).bind fun _ => ih : Respects quiet _) _ hq.1)

/-! Every call keeps the run backed: an edge from a live barrier into a unit raises the backlog, and
it is one more edge from a barrier into a unit. -/

theorem Respects.backed {x : Run α} (hx : Respects quiet x) : Respects backed x :=
  fun s h => (hx s h).1

theorem backed_modify {g : Scheduler → Scheduler} (hst : ∀ s, (g s).store = s.store)
    (hq : ∀ s, (g s).queue = s.queue) : Respects backed (modify g) :=
  Respects.modify fun s h => Backed.congr h (hst s) (hq s)

theorem backed_finishStep {next : Phase} {x : Run α} (hx : Respects backed x) :
    Respects backed (finishStep next x) :=
  Respects.finishStep hx fun h => Backed.congr h rfl rfl

theorem backed_addEdge (fk tk : NodeKind) (src dst : Nat) : Respects backed (addEdge fk tk src dst) :=
  ((backed_recordEdge fk tk src dst).bind fun _ => (quiet_react fk tk src dst).backed).guarded

theorem backed_linkEntries (entries : List Nat) : Respects backed (linkEntries entries) := by
  refine respects_rootVertex.bind fun ⟨root, _⟩ => ?_
  exact (Respects.forIn fun _ _ => (backed_addEdge _ _ _ _).bind fun _ => Respects.pure _).bind
    fun _ => Respects.pure _

theorem backed_insertRoot (t : Double) : Respects backed (insertRoot t) := by
  unfold insertRoot
  refine Respects.get.bind fun s => ?_
  dsimp only
  split
  · exact (backed_modify (fun _ => by rfl) fun _ => by rfl).bind fun _ => Respects.throw_bind _ _
  · refine (Respects.enter _ _).bind fun _ => ?_
    split
    · exact Respects.throw_bind _ _
    · refine backed_finishStep ((quiet_addVertex _).backed.bind fun _ => ?_)
      exact (backed_modify (fun _ => by rfl) fun _ => by rfl).bind fun _ => Respects.pure _

theorem backed_createProcessors (count : Nat) : Respects backed (createProcessors count) := by
  unfold createProcessors
  refine (Respects.enter _ _).bind fun _ => ?_
  dsimp only
  split
  · exact Respects.throw_bind _ _
  · refine backed_finishStep (respects_rootVertex.bind fun rt => ?_)
    obtain ⟨root, time⟩ := rt
    dsimp only
    rw [Std.Legacy.Range.forIn_eq_forIn_range']
    refine (Respects.forIn fun i _ => ?_).bind fun _ => Respects.pure _
    refine (quiet_addVertex _).backed.bind fun node => (backed_addEdge _ _ _ _).bind fun _ => ?_
    exact (backed_modify (fun _ => by rfl) fun _ => by rfl).bind fun _ => Respects.pure _

theorem backed_insertConstraints (g : TaskGraph) : Respects backed (insertConstraints g) := by
  unfold insertConstraints
  refine (Respects.enter _ _).bind fun _ => backed_finishStep ?_
  refine respects_rootVertex.bind fun ⟨_, time⟩ => ?_
  refine (Respects.forIn fun _ _ => ?_).bind fun _ =>
    (Respects.forIn fun _ _ => ?_).bind fun _ => Respects.pure _
  · refine (quiet_addVertex _).backed.bind fun _ => (quiet_addVertex _).backed.bind fun _ => ?_
    exact (backed_modify (fun _ => by rfl) fun _ => by rfl).bind fun _ => Respects.pure _
  · refine Respects.get.bind fun _ => (Respects.forIn fun _ _ => Respects.get.bind fun _ => ?_).bind
      fun _ => Respects.pure _
    split
    · exact (Respects.throw _).bind fun _ => Respects.pure _
    · exact (backed_addEdge _ _ _ _).bind fun _ => Respects.pure _

theorem backed_insertTasks (g : TaskGraph) (split : Split) : Respects backed (insertTasks g split) := by
  unfold insertTasks
  refine (Respects.enter _ _).bind fun _ => backed_finishStep ?_
  refine respects_rootVertex.bind fun ⟨_, time⟩ => Respects.get.bind fun _ => ?_
  refine (Respects.forIn fun ⟨bs, t⟩ _ => ?_).bind fun _ => Respects.pure _
  dsimp only
  split
  · exact (backed_addEdge _ _ _ _).bind fun _ => Respects.pure _
  · refine (Respects.forIn fun ⟨x, k⟩ _ => ?_).bind fun _ => Respects.pure _
    dsimp only
    split
    · exact Respects.throw_bind _ _
    · exact (quiet_addVertex _).backed.bind fun _ => (backed_addEdge _ _ _ _).bind fun _ =>
        (backed_addEdge _ _ _ _).bind fun _ => Respects.pure _

theorem backed_start (task : Nat) : Respects backed (start task) := by
  unfold start
  refine (Respects.enter _ _).bind fun _ => Respects.get.bind fun _ => ?_
  split
  · exact Respects.throw _
  · exact backed_finishStep (backed_linkEntries _)

theorem backed_startEntries : Respects backed startEntries := by
  unfold startEntries
  refine (Respects.enter _ _).bind fun _ => Respects.get.bind fun _ => ?_
  refine (Respects.filterMapM fun _ => (Respects.liftStore _).bind fun _ => Respects.pure _).bind
    fun _ => ?_
  exact backed_finishStep (backed_linkEntries _)

theorem backed_listSchedule : Respects backed listSchedule := by
  unfold listSchedule
  refine (Respects.enter _ _).bind fun _ => backed_finishStep ?_
  refine Respects.get.bind fun _ => (quiet_dispatchWith _).backed.bind fun _ =>
    Respects.get.bind fun _ => ?_
  dsimp only
  split
  · exact Respects.throw _
  · exact Respects.pure _

end Run

namespace Call

theorem backed_run (c : Call) : Run.Respects Scheduler.backed c.run := by
  cases c with
  | command c =>
    cases c with
    | insertRoot t => exact (Run.backed_insertRoot t).bind fun _ => Run.Respects.pure _
    | createProcessors count => exact Run.backed_createProcessors count
    | insertConstraints g => exact Run.backed_insertConstraints g
    | insertTasks g split => exact Run.backed_insertTasks g split
    | start task => exact Run.backed_start task
    | startEntries => exact Run.backed_startEntries
    | listSchedule => exact Run.backed_listSchedule
  | addVertex n => exact (Run.quiet_addVertex n).backed.bind fun _ => Run.Respects.pure _
  | addEdge fk tk src dst => exact Run.backed_addEdge fk tk src dst

end Call

theorem backed_runAll (priority : UnitId → Double) (limit : Nat) (calls : List Call) :
    (Call.runAll calls (Scheduler.new priority (Store.withLimit limit))).Backed [] := by
  suffices h : ∀ s : Scheduler, s.Backed [] → (Call.runAll calls s).Backed [] from
    h _ ⟨fun _ _ h => by simp [Scheduler.new, Store.withLimit] at h, by
      simp [Scheduler.backlog, Scheduler.new, ReadyQueue.size_eq_length, Store.stackReleases,
        Store.liveReleases, Store.releasesOf, Store.total, Store.withLimit]⟩
  induction calls with
  | nil => exact fun _ h => h
  | cons c calls ih => exact fun s h => ih _ (c.backed_run s h)

end ListScheduling
