import ListScheduling.Proofs.Scheduler.Onward

/-!
The root's edges.
-/
namespace ListScheduling

namespace Store

variable {st : Store}

theorem getElem?_zero_append (h : st.HasKind 0 .root) (n : Node) :
    (st.append n).slots[0]? = st.slots[0]? := by
  obtain ⟨slot, h0, -⟩ := h
  have hpos : 0 < st.size := (Array.getElem?_eq_some_iff.1 h0).1
  rw [getElem?_append, if_neg (Nat.ne_of_lt hpos)]

theorem ne_zero_of_kind_ne (h : st.HasKind 0 .root) {i : Nat} {slot : Slot}
    (hi : st.slots[i]? = some slot) (hk : slot.node.kind ≠ .root) : i ≠ 0 := by
  rintro rfl
  obtain ⟨slot', h0, hk'⟩ := h
  rw [h0, Option.some.injEq] at hi
  exact hk (hi ▸ hk')

theorem getElem?_zero_setNode (h : st.HasKind 0 .root) {i : Nat} {slot : Slot}
    (hi : st.slots[i]? = some slot) (hk : slot.node.kind ≠ .root) (n : Node) :
    (st.setNode i n).slots[0]? = st.slots[0]? := by
  rw [getElem?_setNode, if_neg (ne_zero_of_kind_ne h hi hk)]

theorem getElem?_zero_appendEdge (h : st.HasKind 0 .root) {src : Nat} {slot : Slot}
    (hi : st.slots[src]? = some slot) (hk : slot.node.kind ≠ .root) (dst : Nat) :
    (st.appendEdge src dst).slots[0]? = st.slots[0]? := by
  rw [getElem?_appendEdge, if_neg (ne_zero_of_kind_ne h hi hk)]

end Store

/-- The law of the root's slot: the first vertex is the root, and stays as it is. -/
def Scheduler.rootKept : Run.Law where
  inv s := s.store.HasKind 0 .root
  rel s s' := s.store.HasKind 0 .root ∧ s'.store.slots[0]? = s.store.slots[0]?
  refl _ h := ⟨h, rfl⟩
  trans h₁ h₂ := ⟨h₁.1, h₂.2.trans h₁.2⟩
  inv_of_rel := by
    rintro s s' ⟨⟨slot, h0, hk⟩, he⟩
    exact ⟨slot, he.trans h0, hk⟩
  poison h := h

namespace Run

variable {α : Type}

/-- Every run of `x` from a state whose first vertex is the root leaves the root's slot as it
is, whatever its outcome. -/
def KeepsRoot (x : Run α) : Prop := Respects Scheduler.rootKept x

theorem KeepsRoot.modifyStore_bind_at {g : Store → Store} {f : Unit → Run α} {s : Scheduler}
    (h : s.store.HasKind 0 .root) (hg : (g s.store).slots[0]? = s.store.slots[0]?)
    (hf : KeepsRoot (f ())) : Scheduler.rootKept.rel s ((modifyStore g >>= f).run.run s).2 := by
  rw [run_modifyStore_bind]
  have h₁ : Scheduler.rootKept.rel s { s with store := g s.store } := ⟨h, hg⟩
  exact Scheduler.rootKept.trans h₁ (hf _ (Scheduler.rootKept.inv_of_rel h₁))

theorem keepsRoot_modify {g : Scheduler → Scheduler} (hg : ∀ s, (g s).store = s.store) :
    KeepsRoot (modify g) :=
  Respects.modify fun s h => ⟨h, by rw [hg]⟩

theorem keepsRoot_modifyStats (f : Stats → Stats) : KeepsRoot (modifyStats f) :=
  keepsRoot_modify fun _ => rfl

theorem keepsRoot_addVertex (n : Node) : KeepsRoot (addVertex n) := by
  intro s (h : s.store.HasKind 0 .root)
  by_cases hroom : s.store.size < s.store.limit
  · rw [run_addVertex n hroom]
    exact ⟨h, Store.getElem?_zero_append h n⟩
  · rw [run_addVertex_full n (Nat.not_lt.1 hroom)]
    exact ⟨h, rfl⟩

theorem keepsRoot_recordEdge {fk : NodeKind} (hfk : fk ≠ .root) (tk : NodeKind) (src dst : Nat) :
    KeepsRoot (recordEdge fk tk src dst) := by
  intro s (h : s.store.HasKind 0 .root)
  cases hc : s.store.checkEdge fk tk src dst with
  | error e =>
    rw [run_recordEdge_error hc]
    exact ⟨h, rfl⟩
  | ok _ =>
    obtain ⟨⟨_, hsrc, hk⟩, -⟩ := Store.slots_of_checkEdge hc
    rw [run_recordEdge hc]
    exact ⟨h, Store.getElem?_zero_appendEdge h hsrc (hk ▸ hfk) dst⟩

theorem keepsRoot_registerInput (b : Nat) : KeepsRoot (registerInput b) := by
  refine Respects.get_bind fun s (h : s.store.HasKind 0 .root) => ?_
  cases hb : s.store.barrierAt b with
  | error e => exact ⟨h, rfl⟩
  | ok bar =>
    simp only [run_liftStore_ok_bind]
    obtain ⟨out, hslot⟩ := Store.slot_of_barrierAt hb
    cases bar.satisfied
    · exact ⟨h, Store.getElem?_zero_setNode h hslot nofun _⟩
    · exact ⟨h, rfl⟩

theorem keepsRoot_satisfyInput (a b : Nat) : KeepsRoot (satisfyInput a b) := by
  refine Respects.get_bind fun s (h : s.store.HasKind 0 .root) => ?_
  dsimp only
  cases ha : s.store.get a with
  | error e => exact ⟨h, rfl⟩
  | ok na =>
    cases hb : s.store.barrierAt b with
    | error e => exact ⟨h, rfl⟩
    | ok bar =>
      simp only [run_liftStore_ok_bind]
      obtain ⟨out, hslot⟩ := Store.slot_of_barrierAt hb
      split
      · exact ⟨h, rfl⟩
      · split
        · exact KeepsRoot.modifyStore_bind_at h (Store.getElem?_zero_setNode h hslot nofun _)
            (Respects.pure _)
        · exact KeepsRoot.modifyStore_bind_at h (Store.getElem?_zero_setNode h hslot nofun _)
            ((keepsRoot_modifyStats _).bind fun _ => respects_outEdges _ _)

theorem keepsRoot_releaseUnit (a b : Nat) : KeepsRoot (releaseUnit a b) := by
  refine Respects.get_bind fun s (h : s.store.HasKind 0 .root) => ?_
  dsimp only
  cases ha : s.store.barrierAt a with
  | error e => exact ⟨h, rfl⟩
  | ok bar =>
    cases hb : s.store.unitAt b with
    | error e => exact ⟨h, rfl⟩
    | ok un =>
      simp only [run_liftStore_ok_bind]
      obtain ⟨out, hslot⟩ := Store.slot_of_unitAt hb
      exact KeepsRoot.modifyStore_bind_at h (Store.getElem?_zero_setNode h hslot nofun _)
        (keepsRoot_modify fun _ => rfl)

theorem keepsRoot_propagate (a b : Nat) : KeepsRoot (propagate a b) := by
  refine Respects.get.bind fun s => (Respects.liftStore _).bind fun ka =>
    (Respects.liftStore _).bind fun kb => ?_
  split
  · exact keepsRoot_satisfyInput a b
  · exact keepsRoot_satisfyInput a b
  · exact (keepsRoot_releaseUnit a b).bind fun _ => Respects.pure _
  · exact Respects.pure _

theorem keepsRoot_drainWith (fuel : Nat) (stack : List (Nat × Nat)) :
    KeepsRoot (drainWith fuel stack) := by
  induction fuel generalizing stack with
  | zero => exact Respects.pure _
  | succ fuel ih =>
    cases stack with
    | nil => exact Respects.pure _
    | cons e rest => exact (keepsRoot_propagate e.1 e.2).bind fun next => ih _

theorem keepsRoot_drain (stack : List (Nat × Nat)) : KeepsRoot (drain stack) :=
  Respects.get.bind fun _ => keepsRoot_drainWith _ _

theorem keepsRoot_releaseFromRoot (r b : Nat) : KeepsRoot (releaseFromRoot r b) := by
  refine Respects.get_bind fun s (h : s.store.HasKind 0 .root) => ?_
  dsimp only
  cases hr : s.store.rootAt r with
  | error e => exact ⟨h, rfl⟩
  | ok t =>
    cases hb : s.store.barrierAt b with
    | error e => exact ⟨h, rfl⟩
    | ok bar =>
      simp only [run_liftStore_ok_bind]
      obtain ⟨out, hslot⟩ := Store.slot_of_barrierAt hb
      split
      · exact ⟨h, rfl⟩
      · split
        · exact ⟨h, rfl⟩
        · exact KeepsRoot.modifyStore_bind_at h (Store.getElem?_zero_setNode h hslot nofun _)
            ((keepsRoot_modifyStats _).bind fun _ => (respects_outEdges _ _).bind keepsRoot_drain)

theorem keepsRoot_assign (p u : Nat) : KeepsRoot (assign p u) := by
  refine Respects.get_bind fun s (h : s.store.HasKind 0 .root) => ?_
  cases hp : s.store.processorAt p with
  | error e => exact ⟨h, rfl⟩
  | ok node =>
    simp only [run_liftStore_ok_bind]
    split
    · exact ⟨h, rfl⟩
    · obtain ⟨out, hslot⟩ := Store.slot_of_processorAt hp
      refine KeepsRoot.modifyStore_bind_at h (Store.getElem?_zero_setNode h hslot nofun _)
        (Respects.get_bind fun s₁ (h₁ : s₁.store.HasKind 0 .root) => ?_)
      cases hu : s₁.store.unitAt u with
      | error e => exact ⟨h₁, rfl⟩
      | ok un =>
        simp only [run_liftStore_ok_bind]
        split
        · exact ⟨h₁, rfl⟩
        · obtain ⟨out', hslot'⟩ := Store.slot_of_unitAt hu
          exact KeepsRoot.modifyStore_bind_at h₁ (Store.getElem?_zero_setNode h₁ hslot' nofun _)
            ((keepsRoot_modifyStats _).bind fun _ => (keepsRoot_addVertex _).bind fun _ =>
              ((keepsRoot_recordEdge (by decide) _ _ _).guarded.bind fun _ =>
                (respects_outEdges _ _).bind keepsRoot_drain))

theorem keepsRoot_react (fk tk : NodeKind) (src dst : Nat) : KeepsRoot (react fk tk src dst) := by
  unfold react
  split
  · exact keepsRoot_registerInput dst
  · exact keepsRoot_registerInput dst
  · exact keepsRoot_releaseFromRoot src dst
  · exact keepsRoot_assign src dst
  · exact Respects.pure _

theorem keepsRoot_addEdge {fk : NodeKind} (hfk : fk ≠ .root) (tk : NodeKind) (src dst : Nat) :
    KeepsRoot (addEdge fk tk src dst) :=
  ((keepsRoot_recordEdge hfk tk src dst).bind fun _ => keepsRoot_react fk tk src dst).guarded

theorem keepsRoot_dispatchWith (fuel : Nat) : KeepsRoot (dispatchWith fuel) := by
  induction fuel with
  | zero => exact Respects.pure _
  | succ fuel ih =>
    refine Respects.get_bind fun s (h : s.store.HasKind 0 .root) => ?_
    split
    · exact ⟨h, rfl⟩
    · rename_i u queue _
      simp only [run_set_bind]
      have hq : Scheduler.rootKept.rel s { s with queue } := ⟨h, rfl⟩
      refine Scheduler.rootKept.trans hq ?_
      split
      · exact ((Respects.liftStore _).bind fun _ => Respects.throw _ : KeepsRoot _) _ h
      · exact ((keepsRoot_addEdge (by decide) _ _ _).bind fun _ => ih : KeepsRoot _) _ h

theorem keepsRoot_listSchedule : KeepsRoot listSchedule := by
  unfold listSchedule
  refine (Respects.enter _ _).bind fun _ =>
    Respects.finishStep ?_ fun h => ⟨h.1, h.2⟩
  refine Respects.get.bind fun _ => (keepsRoot_dispatchWith _).bind fun _ =>
    Respects.get.bind fun _ => ?_
  dsimp only
  split
  · exact Respects.throw _
  · exact Respects.pure _

/-- Linking the root to barriers in turn appends them to the root's edges, when the linking
succeeds. -/
theorem linkEntries_root {s : Scheduler} {t : Double} {out : Array Nat} (hr : s.root = some 0)
    (h0 : s.store.slots[0]? = some ⟨.root t, out⟩) (vs : List Nat) :
    Returns (linkEntries vs) s (fun _ => True)
      fun _ s' => s'.store.slots[0]? = some ⟨.root t, out ++ vs.toArray⟩ := by
  unfold linkEntries
  refine Returns.bind_ok (run_rootVertex hr h0) ?_
  dsimp only
  refine Returns.bind (Returns.forIn (fun i s' =>
      s'.store.slots[0]? = some ⟨.root t, out ++ (vs.take i).toArray⟩) (by simpa using h0)
    fun i hi s' hI => ?_) fun _ s' hI => Returns.pure (by simpa using hI)
  have hroot : s'.store.HasKind 0 .root := ⟨_, hI, rfl⟩
  cases hc : s'.store.checkEdge .root .barrier 0 vs[i] with
  | error e =>
    rw [addEdge]
    exact Returns.of_error (run_bind_error (run_guarded_error (run_bind_error
      (run_recordEdge_error hc)))) trivial
  | ok _ =>
    obtain ⟨s₁, hs₁⟩ : ∃ s₁ : Scheduler, s₁ = { s' with
        store := s'.store.appendEdge 0 vs[i]
        stats.edges := s'.stats.edges + 1 } := ⟨_, rfl⟩
    have h₁ : s₁.store.slots[0]? = some ⟨.root t, out ++ (vs.take (i + 1)).toArray⟩ := by
      rw [hs₁, Store.getElem?_appendEdge, if_pos rfl, hI, Option.map_some, List.take_add_one,
        List.getElem?_eq_getElem hi]
      simp
    have hreact := (keepsRoot_releaseFromRoot 0 vs[i]).guarded s₁ ⟨⟨.root t, _⟩, h₁, rfl⟩
    have hadd : (addEdge .root .barrier 0 vs[i]).run.run s' =
        (guarded (react .root .barrier 0 vs[i])).run.run s₁ := by
      rw [hs₁]
      exact run_addEdge hc
    refine Returns.bind ?_ fun _ s'' h'' => Returns.pure ⟨rfl, h''⟩
    rcases hrun : (guarded (react .root .barrier 0 vs[i])).run.run s₁ with ⟨e | a, s''⟩
    · exact Returns.of_error (hadd.trans hrun) trivial
    · have hkept : s''.store.slots[0]? = s₁.store.slots[0]? := by
        have := hreact.2
        rwa [show (guarded (releaseFromRoot 0 vs[i])).run.run s₁ = (.ok a, s'') from hrun] at this
      exact Returns.of_ok (hadd.trans hrun) (hkept.trans h₁)

end Run

end ListScheduling
