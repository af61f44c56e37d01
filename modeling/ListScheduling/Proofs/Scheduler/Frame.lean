import ListScheduling.Proofs.Scheduler.Law
import ListScheduling.Proofs.Scheduler.Steps

/-!
What the parts of a step leave alone.
-/
namespace ListScheduling

/-- The vertex at index `i` is of kind `k`. -/
def Store.HasKind (st : Store) (i : Nat) (k : NodeKind) : Prop :=
  ∃ slot, st.slots[i]? = some slot ∧ slot.node.kind = k

theorem Store.Keeps.hasKind {st st' : Store} (h : st.Keeps st') {i : Nat} {k : NodeKind}
    (hk : st.HasKind i k) : st'.HasKind i k := by
  obtain ⟨slot, hs, rfl⟩ := hk
  exact h i slot hs

theorem Store.keeps_setNode_barrier {st : Store} {i : Nat} {b b' : BarrierNode}
    (h : st.barrierAt i = .ok b) : st.Keeps (st.setNode i (.barrier b')) := by
  obtain ⟨out, hs⟩ := slot_of_barrierAt h
  exact Keeps.setNode fun slot h' => by rw [hs] at h'; cases h'; rfl

theorem Store.keeps_setNode_unit {st : Store} {i : Nat} {u u' : UnitNode}
    (h : st.unitAt i = .ok u) : st.Keeps (st.setNode i (.unit u')) := by
  obtain ⟨out, hs⟩ := slot_of_unitAt h
  exact Keeps.setNode fun slot h' => by rw [hs] at h'; cases h'; rfl

theorem Store.keeps_setNode_processor {st : Store} {i : Nat} {p p' : ProcessorNode}
    (h : st.processorAt i = .ok p) : st.Keeps (st.setNode i (.processor p')) := by
  obtain ⟨out, hs⟩ := slot_of_processorAt h
  exact Keeps.setNode fun slot h' => by rw [hs] at h'; cases h'; rfl

theorem Store.HasKind.barrierAt {st : Store} {i : Nat} (h : st.HasKind i .barrier) :
    ∃ b, st.barrierAt i = .ok b := by
  obtain ⟨⟨n, out⟩, hs, hk⟩ := h
  cases n <;> cases hk
  exact ⟨_, barrierAt_eq hs⟩

/-- The entry of every task is a barrier vertex. -/
def Scheduler.EntriesPlaced (s : Scheduler) : Prop :=
  ∀ bs ∈ s.barriers, s.store.HasKind bs.entry .barrier

/-- What the parts of a step keep of the state they start from. -/
structure Scheduler.Frame (s s' : Scheduler) : Prop where
  keeps : s.store.Keeps s'.store
  root : s'.root = s.root
  phase : s'.phase = s.phase ∨ s'.phase = .poisoned
  placed : s.EntriesPlaced → s'.EntriesPlaced

namespace Scheduler.Frame

variable {s s₁ s₂ : Scheduler}

@[refl] theorem refl (s : Scheduler) : s.Frame s := ⟨.refl _, rfl, .inl rfl, id⟩

theorem trans (h₁ : s.Frame s₁) (h₂ : s₁.Frame s₂) : s.Frame s₂ where
  keeps := h₁.keeps.trans h₂.keeps
  root := h₂.root.trans h₁.root
  phase := by
    rcases h₂.phase with h | h
    · exact h ▸ h₁.phase
    · exact .inr h
  placed := h₂.placed ∘ h₁.placed

theorem of_keeps (hk : s.store.Keeps s₁.store) (hr : s₁.root = s.root)
    (hb : s₁.barriers = s.barriers) (hp : s₁.phase = s.phase) : s.Frame s₁ where
  keeps := hk
  root := hr
  phase := .inl hp
  placed h bs hbs := hk.hasKind (h bs (hb ▸ hbs))

theorem poison (s : Scheduler) : s.Frame { s with phase := .poisoned } :=
  ⟨.refl _, rfl, .inr rfl, id⟩

theorem pushBarriers {bs : TaskBarriers} (h : s.store.HasKind bs.entry .barrier) :
    s.Frame { s with barriers := s.barriers.push bs } where
  keeps := .refl _
  root := rfl
  phase := .inl rfl
  placed hp bs' hbs' := by
    rcases Array.mem_push.1 hbs' with hbs' | rfl
    · exact hp bs' hbs'
    · exact h

theorem poisoned (h : s.Frame s₁) : s.Frame { s₁ with phase := .poisoned } :=
  h.trans (poison s₁)

end Scheduler.Frame

/-- The law of the parts of a step: from any state, to a frame of it. -/
def Scheduler.Frame.law : Run.Law where
  inv _ := True
  rel := Scheduler.Frame
  refl s _ := .refl s
  trans := Scheduler.Frame.trans
  inv_of_rel _ := trivial
  poison h := h.poisoned

namespace Run

variable {α β : Type}

/-- Every run of `x` ends in a frame of the state it starts from, whatever its outcome. -/
def Framed (x : Run α) : Prop := Respects Scheduler.Frame.law x

namespace Framed

theorem modifyStats (f : Stats → Stats) : Framed (Run.modifyStats f) :=
  fun _ _ => .of_keeps (.refl _) rfl rfl rfl

theorem modifyStore {f : Store → Store} (hf : ∀ st : Store, st.Keeps (f st)) :
    Framed (Run.modifyStore f) :=
  fun s _ => .of_keeps (hf s.store) rfl rfl rfl

theorem modifyStore_bind_at {g : Store → Store} {f : Unit → Run β} (s : Scheduler)
    (hg : s.store.Keeps (g s.store)) (hf : Framed (f ())) :
    s.Frame ((Run.modifyStore g >>= f).run.run s).2 := by
  rw [run_modifyStore_bind]
  have hs : s.Frame { s with store := g s.store } := .of_keeps hg rfl rfl rfl
  exact hs.trans (hf _ trivial)

end Framed

/-! The vertices and edges. -/

theorem framed_addVertex (n : Node) : Framed (addVertex n) := by
  intro s _
  by_cases h : s.store.size < s.store.limit
  · rw [run_addVertex n h]
    exact .of_keeps (.append n) rfl rfl rfl
  · rw [run_addVertex_full n (Nat.not_lt.1 h)]
    exact .poison s

theorem hasKind_addVertex {n : Node} {s s' : Scheduler} {i : Nat}
    (h : (addVertex n).run.run s = (.ok i, s')) : s'.store.HasKind i n.kind := by
  by_cases hroom : s.store.size < s.store.limit
  · rw [run_addVertex n hroom] at h
    cases h
    exact ⟨{ node := n }, by simp [Store.getElem?_append], rfl⟩
  · rw [run_addVertex_full n (Nat.not_lt.1 hroom)] at h
    cases h

theorem framed_recordEdge (fk tk : NodeKind) (src dst : Nat) : Framed (recordEdge fk tk src dst) :=
  Respects.get.bind fun _ => (Respects.liftStore _).bind fun _ =>
    (Framed.modifyStore fun _ => .appendEdge src dst).bind fun _ => Framed.modifyStats _

theorem respects_outEdges {L : Law} (k : NodeKind) (i : Nat) : Respects L (outEdges k i) :=
  Respects.get.bind fun _ => (Respects.liftStore _).bind fun _ => (Respects.liftStore _).bind
    fun _ => Respects.pure _

/-! The reactions to an edge. -/

theorem framed_registerInput (b : Nat) : Framed (registerInput b) := by
  refine Respects.get_bind fun s _ => ?_
  cases hb : s.store.barrierAt b with
  | error e => exact .refl s
  | ok bar =>
    simp only [run_liftStore_ok_bind]
    cases bar.satisfied
    · exact .of_keeps (Store.keeps_setNode_barrier hb) rfl rfl rfl
    · exact .refl s

theorem framed_satisfyInput (a b : Nat) : Framed (satisfyInput a b) := by
  refine Respects.get_bind fun s _ => ?_
  dsimp only
  cases ha : s.store.get a with
  | error e => exact .refl s
  | ok na =>
    cases hb : s.store.barrierAt b with
    | error e => exact .refl s
    | ok bar =>
      simp only [run_liftStore_ok_bind]
      have hk : ∀ b' : BarrierNode, s.store.Keeps (s.store.setNode b (.barrier b')) :=
        fun _ => Store.keeps_setNode_barrier hb
      split
      · exact .refl s
      · split
        · exact Framed.modifyStore_bind_at s (hk _) (Respects.pure _)
        · exact Framed.modifyStore_bind_at s (hk _)
            ((Framed.modifyStats _).bind fun _ => respects_outEdges _ _)

theorem framed_releaseUnit (a b : Nat) : Framed (releaseUnit a b) := by
  refine Respects.get_bind fun s _ => ?_
  dsimp only
  cases ha : s.store.barrierAt a with
  | error e => exact .refl s
  | ok bar =>
    cases hb : s.store.unitAt b with
    | error e => exact .refl s
    | ok un =>
      simp only [run_liftStore_ok_bind]
      exact Framed.modifyStore_bind_at s (Store.keeps_setNode_unit hb)
        (Respects.modify fun _ _ => .of_keeps (.refl _) rfl rfl rfl)

theorem framed_propagate (a b : Nat) : Framed (propagate a b) := by
  refine Respects.get.bind fun s => (Respects.liftStore _).bind fun ka =>
    (Respects.liftStore _).bind fun kb => ?_
  split
  · exact framed_satisfyInput a b
  · exact framed_satisfyInput a b
  · exact (framed_releaseUnit a b).bind fun _ => Respects.pure _
  · exact Respects.pure _

theorem framed_drainWith (fuel : Nat) (stack : List (Nat × Nat)) : Framed (drainWith fuel stack) := by
  induction fuel generalizing stack with
  | zero => exact Respects.pure _
  | succ fuel ih =>
    cases stack with
    | nil => exact Respects.pure _
    | cons e rest => exact (framed_propagate e.1 e.2).bind fun next => ih _

theorem framed_drain (stack : List (Nat × Nat)) : Framed (drain stack) :=
  Respects.get.bind fun _ => framed_drainWith _ _

theorem framed_releaseFromRoot (r b : Nat) : Framed (releaseFromRoot r b) := by
  refine Respects.get_bind fun s _ => ?_
  dsimp only
  cases hr : s.store.rootAt r with
  | error e => exact .refl s
  | ok t =>
    cases hb : s.store.barrierAt b with
    | error e => exact .refl s
    | ok bar =>
      simp only [run_liftStore_ok_bind]
      split
      · exact .refl s
      · split
        · exact .refl s
        · exact Framed.modifyStore_bind_at s (Store.keeps_setNode_barrier hb)
            ((Framed.modifyStats _).bind fun _ => (respects_outEdges _ _).bind framed_drain)

theorem framed_addOrderEdge (fk tk : NodeKind) (src dst : Nat) :
    Framed (addOrderEdge fk tk src dst) :=
  (framed_recordEdge fk tk src dst).guarded

theorem framed_assign (p u : Nat) : Framed (assign p u) := by
  refine Respects.get_bind fun s _ => ?_
  cases hp : s.store.processorAt p with
  | error e => exact .refl s
  | ok node =>
    simp only [run_liftStore_ok_bind]
    split
    · exact .refl s
    · refine Framed.modifyStore_bind_at s (Store.keeps_setNode_processor hp)
        (Respects.get_bind fun s₁ _ => ?_)
      cases hu : s₁.store.unitAt u with
      | error e => exact .refl s₁
      | ok un =>
        simp only [run_liftStore_ok_bind]
        split
        · exact .refl s₁
        · exact Framed.modifyStore_bind_at s₁ (Store.keeps_setNode_unit hu)
            ((Framed.modifyStats _).bind fun _ => (framed_addVertex _).bind fun _ =>
              (framed_addOrderEdge _ _ _ _).bind fun _ => (respects_outEdges _ _).bind framed_drain)

theorem framed_react (fk tk : NodeKind) (src dst : Nat) : Framed (react fk tk src dst) := by
  unfold react
  split
  · exact framed_registerInput dst
  · exact framed_registerInput dst
  · exact framed_releaseFromRoot src dst
  · exact framed_assign src dst
  · exact Respects.pure _

theorem framed_addEdge (fk tk : NodeKind) (src dst : Nat) : Framed (addEdge fk tk src dst) :=
  ((framed_recordEdge fk tk src dst).bind fun _ => framed_react fk tk src dst).guarded

/-! The blocks of the steps. -/

theorem respects_rootVertex {L : Law} : Respects L rootVertex := by
  refine Respects.get_bind fun s hs => ?_
  cases s.root with
  | none => exact L.refl s hs
  | some r => exact ((Respects.liftStore _).bind fun _ => Respects.pure _) s hs

theorem framed_linkEntries (entries : List Nat) : Framed (linkEntries entries) := by
  refine respects_rootVertex.bind fun ⟨root, _⟩ => ?_
  exact (Respects.forIn fun _ _ => (framed_addEdge _ _ _ _).bind fun _ => Respects.pure _).bind
    fun _ => Respects.pure _

theorem framed_dispatchWith (fuel : Nat) : Framed (dispatchWith fuel) := by
  induction fuel with
  | zero => exact Respects.pure _
  | succ fuel ih =>
    refine Respects.get_bind fun s _ => ?_
    split
    · exact .refl s
    · rename_i u queue _
      simp only [run_set_bind]
      have hq : s.Frame { s with queue } := .of_keeps (.refl _) rfl rfl rfl
      refine hq.trans ?_
      split
      · exact ((Respects.liftStore _).bind fun _ => Respects.throw _ : Framed _) _ trivial
      · exact ((framed_addEdge _ _ _ _).bind fun _ => ih : Framed _) _ trivial

end Run

end ListScheduling
