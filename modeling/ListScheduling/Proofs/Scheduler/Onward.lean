import ListScheduling.Proofs.Scheduler.Sound
import ListScheduling.Proofs.Scheduler.Law

/-!
The blocks of a step keep a run sound and move its times forward.
-/
namespace ListScheduling

/-- From a state to a sound one whose store advances the first's. -/
def Scheduler.Onward (r : Double) (s s' : Scheduler) : Prop :=
  s'.Sound r [] ∧ s.store.Advances s'.store

namespace Scheduler.Onward

variable {r : Double} {s s₁ s₂ : Scheduler}

theorem refl (h : s.Sound r []) : s.Onward r s := ⟨h, .refl h.timed⟩

theorem trans (h₁ : s.Onward r s₁) (h₂ : s₁.Onward r s₂) : s.Onward r s₂ :=
  ⟨h₂.1, h₁.2.trans h₂.2⟩

theorem of_advances (ha : s.store.Advances s₁.store) (h : s₁.Onward r s₂) : s.Onward r s₂ :=
  ⟨h.1, ha.trans h.2⟩

theorem congr (h : s.Onward r s₁) (hst : s₂.store = s₁.store) (hq : s₂.queue = s₁.queue) :
    s.Onward r s₂ :=
  ⟨h.1.mono hst fun _ he => hq ▸ he, hst ▸ h.2⟩

theorem setNode (h : s.Sound r []) {i : Nat} {slot : Slot} {n : Node}
    (hi : s.store.slots[i]? = some slot) (hn : n.Sound r) (ha : slot.node.Advances n)
    (hk : n.kind = slot.node.kind) (ho : ({ slot with node := n } : Slot).isOpen = slot.isOpen)
    (hplaced : ∀ un, n = .unit un → un.isScheduled = true → s.store.feeds [] i = 0)
    (hst : s₁.store = s.store.setNode i n) (hq : s₁.queue = s.queue) : s.Onward r s₁ :=
  ⟨h.setNode hi hn hk ho hplaced hst hq, hst ▸ .setNode h.timed hi ha⟩

end Scheduler.Onward

/-- The law of the blocks of the steps of a run from a root at time `r`. -/
def Scheduler.onward (r : Double) : Run.Law where
  inv s := s.Sound r []
  rel s s' := s.Onward r s'
  refl _ h := .refl h
  trans := .trans
  inv_of_rel h := h.1
  poison h := h.congr rfl rfl

theorem Scheduler.Onward.andThen {r : Double} {s s₁ : Scheduler} {α : Type} {x : Run α}
    (h : s.Onward r s₁) (hx : Run.Respects (onward r) x) : s.Onward r (x.run.run s₁).2 :=
  h.trans (hx s₁ h.1)

/-- What an edge from a vertex of kind `fk` into vertex `i` of kind `tk` needs of the state it is
added in. -/
def Scheduler.EdgeOk (s : Scheduler) : NodeKind → NodeKind → Nat → Prop
  | .barrier, .unit, i => s.Idle i
  | .processor, .unit, i => s.store.feeds [] i = 0
  | _, _, _ => True

theorem Slot.kind_of_isOpen {slot : Slot} (h : slot.isOpen = true) : slot.node.kind = .barrier := by
  obtain ⟨n, out⟩ := slot
  cases n with
  | barrier b => rfl
  | _ => cases h

namespace Run

open Scheduler

variable {r : Double} {s : Scheduler}

/-! Blocks that only read. -/

theorem outEdges_ok {k : NodeKind} {i : Nat} {l : List (Nat × Nat)} {s' : Scheduler}
    (h : (outEdges k i).run.run s = (.ok l, s')) :
    s' = s ∧ ∃ slot, s.store.slots[i]? = some slot ∧ slot.node.kind = k ∧
      l = slot.out.toList.map (i, ·) := by
  cases he : s.store.expect i k with
  | error e =>
    simp only [outEdges, run_get_bind, he, run_liftStore_error_bind] at h
    cases h
  | ok n =>
    obtain ⟨out, hslot, hk⟩ := Store.slot_of_expect he
    rw [run_outEdges _ hslot hk] at h
    cases h
    exact ⟨rfl, _, hslot, hk, rfl⟩

theorem rootVertex_time {stack : List (Nat × Nat)} (hs : s.Sound r stack) {i : Nat} {t : Double}
    {s' : Scheduler} (h : rootVertex.run.run s = (.ok (i, t), s')) : r.le t := by
  unfold rootVertex at h
  rw [run_get_bind] at h
  cases hroot : s.root with
  | none =>
    rw [hroot] at h
    cases h
  | some ri =>
    rw [hroot] at h
    dsimp only at h
    cases hr : s.store.rootAt ri with
    | error e =>
      rw [hr] at h
      cases h
    | ok t' =>
      rw [hr] at h
      cases h
      obtain ⟨ro, hslot⟩ := Store.slot_of_rootAt hr
      exact hs.nodes _ _ hslot

theorem respects_rootVertex_bind {β : Type} {f : Nat × Double → Run β}
    (hf : ∀ i t, r.le t → Respects (onward r) (f (i, t))) : Respects (onward r) (rootVertex >>= f) := by
  intro s (hs : s.Sound r [])
  refine respects_rootVertex.bind_at hs fun a s' h h₁ => ?_
  obtain ⟨i, t⟩ := a
  exact hf i t (rootVertex_time hs h) s' h₁.1

theorem respects_modify {g : Scheduler → Scheduler} (hst : ∀ s, (g s).store = s.store)
    (hq : ∀ s, (g s).queue = s.queue) : Respects (onward r) (modify g) :=
  Respects.modify fun s hs => (Onward.refl hs).congr (hst s) (hq s)

theorem respects_poison : Respects (onward r) poison :=
  respects_modify (fun _ => rfl) fun _ => rfl

theorem respects_modifyStats (f : Stats → Stats) : Respects (onward r) (modifyStats f) :=
  respects_modify (fun _ => rfl) fun _ => rfl

/-! Vertices and edges. -/

theorem respects_addVertex {n : Node} (hn : n.Sound r) : Respects (onward r) (addVertex n) := by
  intro s (hs : s.Sound r [])
  by_cases hroom : s.store.size < s.store.limit
  · rw [run_addVertex n hroom]
    exact ⟨hs.append hn rfl rfl, .append hs.timed n⟩
  · rw [run_addVertex_full n (Nat.not_lt.1 hroom)]
    exact (Onward.refl hs).congr rfl rfl

theorem idle_addVertex (hs : s.Sound r []) {n : Node}
    (hn : ∀ un, n = .unit un → un.isScheduled = false) {i : Nat} {s' : Scheduler}
    (h : (addVertex n).run.run s = (.ok i, s')) : s'.Idle i := by
  by_cases hroom : s.store.size < s.store.limit
  · rw [run_addVertex n hroom] at h
    cases h
    refine ⟨?_, ?_, ?_⟩
    · rw [Store.feeds_append]
      exact Store.feeds_eq_zero_of_le hs.closed (Nat.le_refl _)
    · intro slot un hslot hun
      rw [Store.getElem?_append, if_pos rfl] at hslot
      cases hslot
      exact hn un hun
    · intro e he heq
      obtain ⟨⟨slot, hslot, -⟩, -⟩ := hs.queued e he
      exact Nat.lt_irrefl _ (heq ▸ (Array.getElem?_eq_some_iff.1 hslot).1)
  · rw [run_addVertex_full n (Nat.not_lt.1 hroom)] at h
    cases h

variable {fk tk : NodeKind} {src dst : Nat}

theorem run_recordEdge_error {e : StoreError} (h : s.store.checkEdge fk tk src dst = .error e) :
    (recordEdge fk tk src dst).run.run s = (.error (.store e), s) := by
  simp only [recordEdge, run_get_bind, h, run_liftStore_error_bind]

theorem onward_recordEdge (hs : s.Sound r []) (hok : s.EdgeOk fk tk dst) :
    s.Onward r ((recordEdge fk tk src dst).run.run s).2 := by
  cases hc : s.store.checkEdge fk tk src dst with
  | error e =>
    rw [run_recordEdge_error hc]
    exact .refl hs
  | ok _ =>
    obtain ⟨⟨ssrc, hsrc, hks⟩, sdst, hdst, hkd⟩ := Store.slots_of_checkEdge hc
    rw [run_recordEdge hc]
    refine ⟨hs.appendEdge hsrc hdst (fun ho hu => ?_) rfl rfl, .appendEdge hs.timed src dst⟩
    subst hks hkd
    rw [Slot.kind_of_isOpen ho, hu] at hok
    exact hok

theorem respects_addOrderEdge (src dst : Nat) :
    Respects (onward r) (addOrderEdge .unit .processor src dst) :=
  Respects.guarded fun s hs => onward_recordEdge (s := s) hs (trivial : s.EdgeOk .unit .processor dst)

theorem respects_registerInput (b : Nat) : Respects (onward r) (registerInput b) := by
  intro s (hs : s.Sound r [])
  cases hb : s.store.barrierAt b with
  | error e =>
    have hrun : (registerInput b).run.run s = (.error (.store e), s) := by
      simp only [registerInput, run_get_bind, hb, run_liftStore_error_bind]
    rw [hrun]
    exact .refl hs
  | ok bar =>
    obtain ⟨out, hslot⟩ := Store.slot_of_barrierAt hb
    cases hsat : bar.satisfied
    · rw [run_registerInput hslot hsat]
      have hn := (hs.nodes b _ hslot).addInput hsat
      exact .setNode hs hslot hn.1 hn.2 rfl (by simp [Slot.isOpen, BarrierNode.addInput])
        (fun _ h => by cases h) rfl rfl
    · have hrun : (registerInput b).run.run s = (.error (.barrierAlreadySatisfied b), s) := by
        simp only [registerInput, run_get_bind, hb, run_liftStore_ok_bind, hsat, if_true,
          run_throw_bind]
      rw [hrun]
      exact .refl hs

/-! The spreading of readiness, with its stack. -/

section Spreading

variable {a b : Nat} {rest : List (Nat × Nat)}

/-- What taking an edge from the stack leaves: a failure ends the spreading in a sound state,
and a success leaves the run sound for the edges it returns on top of the rest. -/
def Spreads (r : Double) (s : Scheduler) (rest : List (Nat × Nat)) {α : Type} (x : Run (List α))
    (f : List α → List (Nat × Nat)) : Prop :=
  Returns x s (s.Onward r) fun next s' => s'.Sound r (f next ++ rest) ∧ s.store.Advances s'.store

theorem sound_satisfyInput (hs : s.Sound r rest) : Spreads r s rest (satisfyInput a b) id := by
  have h0 : s.Onward r s := .refl (hs.drop (List.nil_sublist _))
  cases ha : s.store.slots[a]? with
  | none =>
    have hrun : (satisfyInput a b).run.run s = (.error (.store (.unknownVertex a)), s) := by
      simp only [satisfyInput, run_get_bind, Store.get_eq_error ha, run_liftStore_error_bind]
    exact .of_error hrun h0
  | some sa =>
    cases hb : s.store.barrierAt b with
    | error e =>
      have hrun : (satisfyInput a b).run.run s = (.error (.store e), s) := by
        simp only [satisfyInput, run_get_bind, Store.get_eq ha, run_liftStore_ok_bind, hb,
          run_liftStore_error_bind]
      exact .of_error hrun h0
    | ok bar =>
      obtain ⟨out, hslot⟩ := Store.slot_of_barrierAt hb
      have hn := hs.nodes b _ hslot
      by_cases hw : bar.waiting = 0
      · have hrun : (satisfyInput a b).run.run s = (.error (.barrierUnderflow b), s) := by
          simp only [satisfyInput, run_get_bind, Store.get_eq ha, run_liftStore_ok_bind, hb, hw,
            if_true, run_throw_bind]
        exact .of_error hrun h0
      · have hopen : bar.satisfied = false := by
          cases hsat : bar.satisfied
          · rfl
          · exact absurd (hn.2.2 hsat) hw
        rcases Nat.lt_or_ge 1 bar.waiting with hw1 | hw1
        · have hr := hn.raise hopen (bar.waiting - 1) sa.node.finishTime
          exact .of_ok (run_satisfyInput_wait ha hslot hw1)
            ⟨hs.setNode hslot hr.1 rfl (by simp [Slot.isOpen, hopen]) (fun _ h => by cases h) rfl rfl,
              .setNode hs.timed hslot hr.2⟩
        · have hr := hn.raise hopen 0 sa.node.finishTime
          have hf := hr.1.fire rfl
          exact .of_ok (run_satisfyInput_fire ha hslot (by omega))
            ⟨hs.fire hslot hopen hf.1 rfl rfl rfl, .setNode hs.timed hslot (hr.2.trans hf.2)⟩

theorem sound_releaseUnit (hs : s.Sound r ((a, b) :: rest)) {bar : BarrierNode} {out : Array Nat}
    {un : UnitNode} {ou : Array Nat} (ha : s.store.slots[a]? = some ⟨.barrier bar, out⟩)
    (hb : s.store.slots[b]? = some ⟨.unit un, ou⟩) :
    Spreads r s rest (releaseUnit a b >>= fun _ => pure ([] : List (Nat × Nat))) id := by
  have hbar : s.store.isBarrier a = true := by simp [Store.isBarrier, ha, Node.kind]
  have h0 := hs.feeds_rest hbar ⟨_, hb, rfl⟩
  have hun := hs.unplaced_of_top hbar hb rfl
  have hr := (hs.nodes b _ hb).raiseUnit hun bar.timing.finish
  have h₁ : ({ s with store := (s.store.setNode b
      (.unit { un with timing := un.timing.advance bar.timing.finish })) } : Scheduler).Sound r rest :=
    (hs.drop (List.sublist_cons_self _ _)).setNode hb hr.1 rfl rfl
      (fun _ h hp => by cases h; exact absurd (hp.symm.trans hun) Bool.noConfusion) rfl rfl
  refine .of_ok ((run_bind_ok (run_releaseUnit ha hb)).trans (run_pure _ _))
    ⟨h₁.push (Store.hasKind_setNode hb _) ?_ rfl rfl, .setNode hs.timed hb hr.2⟩
  rw [Store.feeds_setNode (n := .unit { un with timing := un.timing.advance bar.timing.finish }) hb
    rfl rfl]
  exact h0

theorem run_propagate {sa sb : Slot} (ha : s.store.slots[a]? = some sa)
    (hb : s.store.slots[b]? = some sb) :
    (propagate a b).run.run s = (match sa.node.kind, sb.node.kind with
      | .barrier, .barrier | .unit, .barrier => satisfyInput a b
      | .barrier, .unit => releaseUnit a b >>= fun _ => pure []
      | _, _ => pure []).run.run s := by
  cases hka : sa.node.kind <;> cases hkb : sb.node.kind <;>
    simp only [propagate, run_get_bind, Store.kindAt_eq ha, Store.kindAt_eq hb, hka, hkb,
      run_liftStore_ok_bind]

theorem sound_propagate (hs : s.Sound r ((a, b) :: rest)) : Spreads r s rest (propagate a b) id := by
  have hrest := hs.drop (List.sublist_cons_self _ _)
  have h0 : s.Onward r s := .refl (hs.drop (List.nil_sublist _))
  cases ha : s.store.slots[a]? with
  | none =>
    have hrun : (propagate a b).run.run s = (.error (.store (.unknownVertex a)), s) := by
      simp only [propagate, run_get_bind, Store.kindAt_eq_error ha, run_liftStore_error_bind]
    exact .of_error hrun h0
  | some sa =>
    cases hb : s.store.slots[b]? with
    | none =>
      have hrun : (propagate a b).run.run s = (.error (.store (.unknownVertex b)), s) := by
        simp only [propagate, run_get_bind, Store.kindAt_eq ha, run_liftStore_ok_bind,
          Store.kindAt_eq_error hb, run_liftStore_error_bind]
      exact .of_error hrun h0
    | some sb =>
      obtain ⟨na, oa⟩ := sa
      obtain ⟨nb, ob⟩ := sb
      refine Returns.of_run_eq (run_propagate ha hb) ?_
      split
      · exact sound_satisfyInput hrest
      · exact sound_satisfyInput hrest
      · rename_i hka hkb
        cases na <;> cases hka
        cases nb <;> cases hkb
        exact sound_releaseUnit hs ha hb
      · exact Returns.pure ⟨hrest, .refl hs.timed⟩

theorem onward_drainWith (fuel : Nat) :
    ∀ {stack : List (Nat × Nat)} {s : Scheduler}, s.Sound r stack →
      s.Onward r ((drainWith fuel stack).run.run s).2 := by
  induction fuel with
  | zero =>
    intro stack s hs
    rw [run_drainWith_zero]
    exact .refl (hs.drop (List.nil_sublist _))
  | succ fuel ih =>
    intro stack s hs
    cases stack with
    | nil =>
      rw [run_drainWith_nil]
      exact .refl hs
    | cons e rest =>
      obtain ⟨a, b⟩ := e
      rw [run_drainWith_cons]
      rcases sound_propagate hs with ⟨next, s', hrun, hs', hadv⟩ | ⟨e, s', hrun, hon⟩
      · rw [run_bind_ok hrun]
        exact .of_advances hadv (ih hs')
      · rw [run_bind_error hrun]
        exact hon

theorem onward_drain {stack : List (Nat × Nat)} (hs : s.Sound r stack) :
    s.Onward r ((drain stack).run.run s).2 := by
  rw [run_drain]
  exact onward_drainWith _ hs

theorem respects_outEdges_drain {k : NodeKind} (hk : k ≠ .barrier) (i : Nat) :
    Respects (onward r) (outEdges k i >>= drain) := by
  intro s (hs : s.Sound r [])
  refine (respects_outEdges k i).bind_at hs fun l s' h _ => ?_
  obtain ⟨hss, slot, hslot, hks, rfl⟩ := outEdges_ok h
  subst s'
  have hz : ∀ u, s.store.stackFeeds (slot.out.toList.map (i, ·)) u = 0 := by
    intro u
    rw [Store.stackFeeds_outEdges, if_neg]
    simp [Store.isBarrier, hslot, hks, hk]
  have h' := hs.extend hz
  rw [List.append_nil] at h'
  exact onward_drain h'

end Spreading

/-! The reactions to an edge. -/

theorem respects_releaseFromRoot (rt b : Nat) : Respects (onward r) (releaseFromRoot rt b) := by
  intro s (hs : s.Sound r [])
  rcases run_releaseFromRoot_cases rt b s with ⟨e, hrun⟩ |
    ⟨t, ro, bar, out, -, hslot, hsat, hw, hrun⟩
  · rw [hrun]
    exact .refl hs
  · rw [hrun]
    have hn := (hs.nodes b _ hslot).raise hsat bar.waiting t
    have hf := hn.1.fire hw
    refine .of_advances (.setNode hs.timed hslot (hn.2.trans hf.2)) (onward_drain ?_)
    rw [← List.append_nil (out.toList.map (b, ·))]
    exact hs.fire hslot hsat hf.1 rfl rfl rfl

/-- A processor node takes a unit that nothing can release any more. -/
theorem onward_assign {p u : Nat} (hs : s.Sound r []) (hu0 : s.store.feeds [] u = 0) :
    s.Onward r ((assign p u).run.run s).2 := by
  unfold assign
  rw [run_get_bind]
  cases hp : s.store.processorAt p with
  | error e => exact .refl hs
  | ok node =>
    obtain ⟨op, hps⟩ := Store.slot_of_processorAt hp
    simp only [run_liftStore_ok_bind]
    split
    · exact .refl hs
    · have ho := (hs.nodes p _ hps).occupy
      have h₁ : s.Onward r { s with store := s.store.setNode p (.processor { node with occupied := true }) } :=
        .setNode hs hps ho.1 ho.2 rfl rfl (fun _ h => by cases h) rfl rfl
      have hu₁ : (s.store.setNode p (.processor { node with occupied := true })).feeds [] u = 0 := by
        rw [Store.feeds_setNode (n := .processor { node with occupied := true }) hps rfl rfl]
        exact hu0
      rw [run_modifyStore_bind, run_get_bind]
      refine h₁.trans ?_
      cases hu : (s.store.setNode p (.processor { node with occupied := true })).unitAt u with
      | error e => exact .refl h₁.1
      | ok un =>
        obtain ⟨ou, hus⟩ := Store.slot_of_unitAt hu
        simp only [run_liftStore_ok_bind]
        split
        · exact .refl h₁.1
        · rename_i hsch
          have hpl := (h₁.1.nodes u _ hus).place (Bool.eq_false_iff.2 hsch) node
          rw [run_modifyStore_bind]
          refine Onward.andThen ?_ ?_
          · exact .setNode h₁.1 hus hpl.1 hpl.2.1 rfl rfl (fun _ h _ => by cases h; exact hu₁) rfl rfl
          refine (respects_modifyStats _).bind fun _ => (respects_addVertex hpl.2.2).bind fun next => ?_
          exact (respects_addOrderEdge u next).bind fun _ => respects_outEdges_drain (by decide) u

/-- An edge, recorded and reacted to, from a state where it can be added. -/
theorem onward_addEdge (hs : s.Sound r []) (hok : s.EdgeOk fk tk dst) :
    s.Onward r ((addEdge fk tk src dst).run.run s).2 := by
  refine Law.guarded_at (L := onward r)
    (Law.bind_at (L := onward r) (onward_recordEdge hs hok) fun _ s₁ hrec h₁ => ?_)
  cases hc : s.store.checkEdge fk tk src dst with
  | error e =>
    rw [run_recordEdge_error hc] at hrec
    cases hrec
  | ok _ =>
    obtain ⟨⟨ssrc, hsrc, hks⟩, -⟩ := Store.slots_of_checkEdge hc
    rw [run_recordEdge hc] at hrec
    cases hrec
    unfold react
    split
    · exact respects_registerInput dst _ h₁.1
    · exact respects_registerInput dst _ h₁.1
    · exact respects_releaseFromRoot src dst _ h₁.1
    · refine onward_assign h₁.1 ?_
      rw [Store.feeds_appendEdge hsrc, if_neg fun h => absurd (Slot.kind_of_isOpen h.1) ?_]
      · exact hok
      · rw [hks]
        decide
    · exact .refl h₁.1

theorem respects_addEdge (hok : ∀ s : Scheduler, s.EdgeOk fk tk dst) :
    Respects (onward r) (addEdge fk tk src dst) :=
  fun s hs => onward_addEdge hs (hok s)

theorem respects_dispatchWith (fuel : Nat) : Respects (onward r) (dispatchWith fuel) := by
  induction fuel with
  | zero => exact Respects.pure _
  | succ fuel ih =>
    intro s (hs : s.Sound r [])
    cases hq : s.queue.entries with
    | nil =>
      rw [run_dispatchWith_nil fuel hq]
      exact .refl hs
    | cons e rest =>
      have h₁ : s.Onward r { s with queue := ⟨⟨rest⟩, s.queue.nextSeq⟩ } :=
        ⟨hs.mono rfl fun e' he' => by rw [hq]; exact List.mem_cons_of_mem _ he', .refl hs.timed⟩
      have he : s.store.feeds [] e.vertex = 0 := (hs.queued e (by rw [hq]; exact List.mem_cons_self)).2
      cases hp : s.store.earliestFree with
      | none =>
        simp only [dispatchWith, run_get_bind, ReadyQueue.pop?_of_entries_cons hq, run_set_bind, hp]
        cases s.store.unitAt e.vertex <;> exact h₁
      | some p =>
        rw [run_dispatchWith_cons fuel hq hp]
        exact h₁.trans (Law.bind_at (L := onward r) (onward_addEdge h₁.1 he)
          fun _ s' _ h₂ => ih s' h₂.1)

end Run

end ListScheduling
