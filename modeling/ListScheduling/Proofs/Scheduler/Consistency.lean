import ListScheduling.Proofs.Scheduler.Assembly
import ListScheduling.Proofs.Refinement.Readout

/-!
Runs driven by the pipeline never meet an inconsistency.
-/

/-- A computation that succeeds, or fails with an error that `E` allows. -/
def Except.Allows {ε α : Type} (E : ε → Prop) (x : Except ε α) : Prop :=
  ∀ e, x = .error e → E e

namespace Except.Allows

variable {ε α β : Type} {E : ε → Prop}

theorem ok (a : α) : (Except.ok a : Except ε α).Allows E := by
  intro e h
  cases h

theorem error {e : ε} (he : E e) : (Except.error e : Except ε α).Allows E := by
  intro e' h
  cases h
  exact he

theorem bind {x : Except ε α} {k : α → Except ε β} (hx : x.Allows E)
    (hk : ∀ a, x = .ok a → (k a).Allows E) : (x >>= k).Allows E := by
  cases x with
  | error e => exact error (hx e rfl)
  | ok a => exact hk a rfl

theorem mapM {l : List α} {f : α → Except ε β} (h : ∀ a ∈ l, (f a).Allows E) :
    (l.mapM f).Allows E := by
  induction l with
  | nil => exact ok []
  | cons a l ih =>
    rw [List.mapM_cons]
    exact bind (h a List.mem_cons_self) fun _ _ =>
      bind (ih fun b hb => h b (List.mem_cons_of_mem _ hb)) fun _ _ => ok _

end Except.Allows

namespace ListScheduling

open Run

namespace Scheduler

variable {s : Scheduler}

/-- The plan of a run whose landmarks are of their kinds fails only for its phase or for a unit
never placed: every vertex it reads is there, of its kind. -/
theorem Marked.plan_allows (h : s.Marked) : s.plan.Allows fun e => e.Expected s.store := by
  by_cases hp : s.phase = .poisoned
  · rw [plan_poisoned hp]
    exact .error rfl
  by_cases hd : s.phase = .done
  swap
  · rw [plan_misplaced hp hd]
    exact .error rfl
  unfold Scheduler.plan
  rw [hd]
  dsimp only
  split
  all_goals refine Except.Allows.bind ?_ fun _ _ => ?_
  · rename_i r hr
    obtain ⟨t, ro, hro⟩ := (h.root r hr).root
    rw [Store.get_eq hro]
    exact .ok _
  pick_goal 2
  · exact .ok _
  all_goals
    -- an entry fails only for a unit never placed
    refine Except.Allows.bind (Except.Allows.mapM ?_) fun _ _ => ?_
    · rintro ⟨v, u⟩ -
      dsimp only
      split
      · exact .error rfl
      · exact .ok _
    refine Except.Allows.bind (Except.Allows.mapM ?_) fun _ _ =>
      Except.Allows.bind (Except.Allows.mapM ?_) fun _ _ => .ok _
    · intro first hfirst
      obtain ⟨⟨n, out⟩, hs, hk⟩ := h.processors first (Array.mem_toList_iff.1 hfirst)
      cases n <;> cases hk
      obtain ⟨l, hl⟩ := Store.walkFrom_ok (s.store.size + 1) ⟨_, Store.processorAt_eq hs⟩
      rw [hl]
      exact .ok _
    · intro bs hbs
      obtain ⟨he, hx⟩ := h.barriers bs (Array.mem_toList_iff.1 hbs)
      obtain ⟨entry, hentry⟩ := he.barrierAt
      obtain ⟨exit, hexit⟩ := hx.barrierAt
      rw [hentry, hexit]
      exact .ok _

/-- A fresh run over a store of any limit is steady. -/
theorem Steady.new (priority : UnitId → Double) (limit : Nat) :
    (Scheduler.new priority (Store.withLimit limit)).Steady := by
  have hslot : ∀ i : Nat,
      (Scheduler.new priority (Store.withLimit limit)).store.slots[i]? = none := by
    simp [Scheduler.new, Store.withLimit]
  refine ⟨⟨?_, ?_, ?_, ?_, ?_, ?_⟩, ?_, ⟨?_, ?_, ?_⟩, ?_⟩
  · intro i slot hs
    rw [hslot] at hs
    cases hs
  · intro slot hs
    simp [Scheduler.new, Store.withLimit] at hs
  · intro e he
    cases he
  · intro b bar out hs
    rw [hslot] at hs
    cases hs
  · intro u un out hs
    rw [hslot] at hs
    cases hs
  · intro e he
    simp [Scheduler.new] at he
  · intro k
    simp [Scheduler.new, Store.withLimit, Store.freeCount, Store.total]
  · intro r hr
    cases hr
  · intro p hp
    simp [Scheduler.new] at hp
  · intro bs hbs
    simp [Scheduler.new] at hbs
  · refine ⟨rfl, rfl, rfl, fun b bar out hs => ?_, Nat.min_le_right _ _⟩
    rw [hslot] at hs
    cases hs

end Scheduler

/-! The start and the list scheduling. -/

namespace Store

variable {st : Store} {bs : TaskBarriers}

/-- The entry of a task's barriers when it awaits no input, as a start from every such task
reads it. -/
def idleEntry (st : Store) (bs : TaskBarriers) : Option Nat :=
  (st.barrierAt bs.entry).toOption.bind fun bar => if bar.waiting = 0 then some bs.entry else none

theorem idleEntry_eq {bar : BarrierNode} {out : Array Nat}
    (h : st.slots[bs.entry]? = some ⟨.barrier bar, out⟩) :
    st.idleEntry bs = if bar.waiting = 0 then some bs.entry else none := by
  rw [idleEntry, barrierAt_eq h]
  rfl

theorem eq_of_idleEntry {e : Nat} (h : st.idleEntry bs = some e) : e = bs.entry := by
  obtain ⟨bar, -, hif⟩ := Option.bind_eq_some_iff.1 h
  by_cases hw : bar.waiting = 0
  · rw [if_pos hw] at hif
    exact (Option.some.inj hif).symm
  · rw [if_neg hw] at hif
    cases hif

end Store

namespace Run

open Scheduler

variable {s : Scheduler}

/-- Linking the root to the entries of a run: each fires in turn, or the first is refused while it
awaits inputs. -/
theorem ends_linkEntries (h : s.Steady) (hph : s.phase = .tasksInserted) {es : List Nat}
    (hbar : ∀ e ∈ es, s.store.HasKind e .barrier)
    (hes : es.Pairwise fun a b => a ≠ b ∧ s.store.inputs [] b = 0) :
    Ends (linkEntries es) s RunError.Expected fun _ s' => { s' with phase := .started }.Steady := by
  have hs := h.staged
  rw [hph] at hs
  obtain ⟨⟨r, hroot⟩, hp, -, hunf⟩ := hs
  obtain ⟨t, ro, hro⟩ := (h.marked.root r hroot).root
  unfold linkEntries
  refine Ends.bind_ok (run_rootVertex hroot hro) ?_
  dsimp only
  refine Ends.bind (Ends.forIn (fun i s' => s'.Balanced [] ∧ s'.Staffed ∧ s.Alike s' ∧
      ∀ j (hj : j < es.length), i ≤ j → s'.store.slots[es[j]]? = s.store.slots[es[j]]?)
    ⟨h.balanced, h.staffed, .refl s, fun _ _ _ => rfl⟩ ?_) ?_
  swap
  · rintro _ s' ⟨h', hst', ha', -⟩
    have hp' : 0 < s'.processors.size := ha'.processors ▸ hp
    exact Ends.pure (Steady.moved h' hst' (h.marked.of_alike ha') .started hp')
  intro i hi s₁ hI
  obtain ⟨h₁, hst₁, ha₁, hsl₁⟩ := hI
  obtain ⟨bar, out, hb⟩ := (hbar es[i] (List.getElem_mem hi)).barrier
  have hb₁ : s₁.store.slots[es[i]]? = some ⟨.barrier bar, out⟩ :=
    (hsl₁ i hi (Nat.le_refl i)).trans hb
  obtain ⟨t₁, ro₁, hro₁⟩ := (ha₁.keeps.hasKind (h.marked.root r hroot)).root
  obtain ⟨ro₂, hro₂⟩ := Store.node_appendEdge hro₁ r es[i]
  obtain ⟨out₂, hb₂⟩ := Store.node_appendEdge hb₁ r es[i]
  -- the root is never pending, so its new edge is no input
  have h₂ : ({ s₁ with
      store := s₁.store.appendEdge r es[i]
      stats.edges := s₁.stats.edges + 1 } : Scheduler).Balanced [] :=
    h₁.appendEdge hro₁ (Store.HasKind.lt_size ⟨_, hb₁, rfl⟩)
      (fun hp => absurd hp Bool.false_ne_true) rfl rfl
  refine Ends.bind (ends_addEdge ⟨_, hro₁, rfl⟩ ⟨_, hb₁, rfl⟩
    (ends_releaseFromRoot h₂ hro₂ hb₂ (hunf _ _ _ hb))) ?_
  rintro _ s₃ ⟨h₃, hsp⟩
  refine Ends.pure ⟨rfl, h₃,
    hst₁.of_freeCount (fun k => (hsp.free k).trans (Store.freeCount_appendEdge hro₁ _))
      (congrArg Array.size hsp.processors),
    ha₁.trans ((Alike.of_store (.appendEdge r es[i]) _).trans hsp.toAlike), fun j hj hij => ?_⟩
  -- a later entry is another barrier that awaits nothing, so the spreading leaves it
  obtain ⟨hne, hzero⟩ := List.pairwise_iff_getElem.1 hes i j hi hj (by omega)
  obtain ⟨barj, outj, hbj⟩ := (hbar es[j] (List.getElem_mem hj)).barrier
  have hrj : r ≠ es[j] := by
    intro hrj
    rw [hrj, hbj] at hro
    cases hro
  have happ : (s₁.store.appendEdge r es[i]).slots[es[j]]? = s.store.slots[es[j]]? := by
    rw [Store.getElem?_appendEdge, if_neg hrj]
    exact hsl₁ j hj (by omega)
  have hw₂ := (h₂.barrier _ barj outj (happ.trans hbj)).1
  have hw := (h.balanced.barrier _ barj outj hbj).1
  refine (hsp.untouched _ ⟨hne, ?_⟩).trans happ
  rw [← hw₂, hw]
  exact hzero

theorem ends_start (h : s.Steady) (hph : s.phase = .tasksInserted) {task : Nat}
    {bs : TaskBarriers} (hb : s.barriers[task]? = some bs) :
    Ends (start task) s RunError.Expected fun _ s' => s'.Steady := by
  have hen := (h.marked.barriers bs (Array.mem_of_getElem? hb)).1
  unfold start
  refine Ends.bind_ok (run_enter hph (by decide)) ?_
  refine Ends.bind_ok (run_get s) ?_
  simp only [hb]
  refine Ends.finishStep_of (ends_linkEntries h hph ?_ (List.pairwise_singleton _ _))
  intro e he
  rw [List.mem_singleton.1 he]
  exact hen

/-- A start from every task whose entry awaits nothing: the entries, in task order, are distinct
barriers, so each fires in turn. -/
theorem ends_startEntries (h : s.Steady) (hph : s.phase = .tasksInserted) :
    Ends startEntries s RunError.Expected fun _ s' => s'.Steady := by
  have hs := h.staged
  rw [hph] at hs
  obtain ⟨-, -, ⟨base, hlay⟩, -⟩ := hs
  have hentry : ∀ bs ∈ s.barriers.toList, s.store.HasKind bs.entry .barrier :=
    fun bs hbs => (h.marked.barriers bs (Array.mem_toList_iff.1 hbs)).1
  unfold startEntries
  refine Ends.bind_ok (run_enter hph (by decide)) ?_
  refine Ends.bind_ok (run_get s) ?_
  -- every entry is a barrier vertex, so reading the entries cannot fail
  refine Ends.bind_ok (run_filterMapM (g := s.store.idleEntry) fun bs hbs => ?_) ?_
  · obtain ⟨bar, out, hen⟩ := (hentry bs hbs).barrier
    rw [Store.idleEntry_eq hen]
    simp only [Store.barrierAt_eq hen, run_liftStore_ok_bind, run_pure]
  refine Ends.finishStep_of (ends_linkEntries h hph ?_ ?_)
  · intro e he
    obtain ⟨bs, hbs, he'⟩ := List.mem_filterMap.1 he
    rw [Store.eq_of_idleEntry he']
    exact hentry bs hbs
  have hent : s.barriers.toList.Pairwise fun bs bs' => bs.entry < bs'.entry := by
    rw [hlay, List.pairwise_map]
    refine List.pairwise_lt_range.imp fun hab => ?_
    show _ + 2 * _ < _ + 2 * _
    omega
  have hlt : (s.barriers.toList.filterMap s.store.idleEntry).Pairwise (· < ·) := by
    refine hent.filterMap _ fun a a' haa b hb b' hb' => ?_
    rw [Store.eq_of_idleEntry hb, Store.eq_of_idleEntry hb']
    exact haa
  refine hlt.imp_of_mem fun _ hb hab => ⟨Nat.ne_of_lt hab, ?_⟩
  obtain ⟨bs, hbs, he⟩ := List.mem_filterMap.1 hb
  obtain ⟨bar, out, hen⟩ := (hentry bs hbs).barrier
  have hw : bar.waiting = 0 := by
    rw [Store.idleEntry_eq hen] at he
    by_cases hw : bar.waiting = 0
    · exact hw
    · rw [if_neg hw] at he
      cases he
  rw [Store.eq_of_idleEntry he, ← (h.balanced.barrier _ bar out hen).1]
  exact hw

theorem ends_listSchedule (h : s.Steady) (hph : s.phase = .started) :
    Ends listSchedule s RunError.Expected fun _ s' => s'.Steady := by
  have hpos : 0 < s.processors.size := by
    have hs := h.staged
    rw [hph] at hs
    exact hs
  unfold listSchedule
  refine Ends.bind_ok (run_enter hph (by decide)) ?_
  refine Ends.finishStep_of ?_
  refine Ends.bind_ok (run_get s) ?_
  refine Ends.bind (ends_dispatchWith _ h.balanced h.staffed hpos) ?_
  rintro _ s₁ ⟨h₁, hst₁, ha₁⟩
  refine Ends.bind_ok (run_get s₁) ?_
  dsimp only
  split
  · exact Ends.throw rfl
  · exact Ends.pure (Steady.moved h₁ hst₁ (h.marked.of_alike ha₁) .done trivial)

end Run

/-! Every step of the pipeline. -/

namespace Command

variable {s : Scheduler}

/-- What a step asks of its arguments beyond its own checks: no task of a graph has as many
dependencies as a barrier's word can count. -/
def Fits : Command → Prop
  | .insertConstraints g => ∀ t < g.size, g.inputs.count t < BarrierNode.inputLimit
  | _ => True

theorem refusal_expected {c : Command} {e : RunError} (h : c.refusal s = some e) (st : Store) :
    e.Expected st := by
  cases c with
  | insertRoot time =>
    simp only [refusal] at h
    split at h
    · cases h
    · cases h
      rfl
  | createProcessors n =>
    simp only [refusal] at h
    split at h
    · cases h
      rfl
    · cases h
  | start task =>
    simp only [refusal] at h
    split at h
    · cases h
      rfl
    · cases h
  | _ => cases h

/-- From a steady state, a step in its phase that passes its checks ends steady, or fails with
a foreseen error. -/
theorem ends_run (h : s.Steady) {c : Command} (hph : s.phase = c.phase) (hr : c.refusal s = none)
    (hc : c.Fits) : Ends c.run s RunError.Expected fun _ s' => s'.Steady := by
  cases c with
  | insertRoot time =>
    have ht : time.isFinite = true := by
      cases ht : time.isFinite
      · simp [refusal, ht] at hr
      · rfl
    exact Ends.bind (ends_insertRoot h hph ht) fun _ _ h' => Ends.pure h'
  | createProcessors n =>
    have hn : n ≠ 0 := by
      intro hn
      simp [refusal, hn] at hr
    exact ends_createProcessors h hph hn
  | insertConstraints g => exact ends_insertConstraints h hph g hc
  | insertTasks g split => exact ends_insertTasks h hph g split
  | start task =>
    obtain ⟨bs, hb⟩ : ∃ bs, s.barriers[task]? = some bs := by
      cases hb : s.barriers[task]? with
      | none => simp [refusal, hb] at hr
      | some bs => exact ⟨bs, rfl⟩
    exact ends_start h hph hb
  | startEntries => exact ends_startEntries h hph
  | listSchedule => exact ends_listSchedule h hph

/-- One step from a coherent state that is poisoned or steady: it fails only with a foreseen error,
and leaves a state that is poisoned or steady. -/
theorem step_steady (hco : s.Coherent) (h : s.phase = .poisoned ∨ s.Steady) (c : Command)
    (hc : c.Fits) :
    (c.run.run.run s).1.Allows (fun e => e.Expected (c.run.run.run s).2.store) ∧
      ((c.run.run.run s).2.phase = .poisoned ∨ (c.run.run.run s).2.Steady) := by
  by_cases hp : s.phase = .poisoned
  · rw [c.run_poisoned hp]
    exact ⟨.error rfl, .inl hp⟩
  have hs := h.resolve_left hp
  by_cases hph : s.phase = c.phase
  · cases hr : c.refusal s with
    | some e =>
      rw [c.run_refused hco hph hr]
      exact ⟨.error (refusal_expected hr s.store), .inr hs⟩
    | none =>
      have hob := (c.obeys hco).1
      rw [Obeys, if_neg hp, if_neg (fun hne => hne hph), hr] at hob
      rcases ends_run hs hph hr hc with ⟨a, s', hx, hs'⟩ | ⟨e, s', hx, he⟩
      · rw [hx]
        exact ⟨.ok a, .inr hs'⟩
      · rw [hx] at hob ⊢
        exact ⟨.error he, .inl hob⟩
  · rw [c.run_misplaced hco hp hph]
    cases c with
    | insertRoot time => exact ⟨.error rfl, .inl rfl⟩
    | _ => exact ⟨.error rfl, .inr hs⟩

end Command

/-! Runs driven by the pipeline. -/

/-- The states a run reaches from a fresh scheduler with priorities `priority`, over a store
that holds at most `limit` vertices, through steps of the pipeline whose arguments fit. -/
inductive Driven (priority : UnitId → Double) (limit : Nat) : Scheduler → Prop
  | new : Driven priority limit (Scheduler.new priority (Store.withLimit limit))
  | step {s : Scheduler} (c : Command) (hc : c.Fits) :
      Driven priority limit s → Driven priority limit (c.run.run.run s).2

namespace Driven

variable {priority : UnitId → Double} {limit : Nat} {s : Scheduler}

theorem reachable (h : Driven priority limit s) : Reachable s := by
  induction h with
  | new => exact .new priority _
  | step c _ _ ih => exact ih.call (.command c)

theorem poisoned_or_steady (h : Driven priority limit s) : s.phase = .poisoned ∨ s.Steady := by
  induction h with
  | new => exact .inr (Scheduler.Steady.new priority limit)
  | step c hc hd ih => exact (Command.step_steady hd.reachable.coherent ih c hc).2

end Driven

/-- A run that keeps its counts: no step whose arguments fit fails with an inconsistency. -/
structure Scheduler.Consistent (s : Scheduler) : Prop where
  steps : ∀ c : Command, c.Fits →
    (c.run.run.run s).1.Allows fun e => e.Expected (c.run.run.run s).2.store
  plan : s.plan.Allows fun e => e.Expected s.store
  balanced : s.phase ≠ .poisoned → s.Balanced []
  staffed : s.phase ≠ .poisoned → s.Staffed

/-- Every state that the pipeline reaches from a fresh scheduler keeps its counts. -/
theorem Driven.consistent {priority : UnitId → Double} {limit : Nat} {s : Scheduler}
    (h : Driven priority limit s) : s.Consistent where
  steps c hc := (Command.step_steady h.reachable.coherent h.poisoned_or_steady c hc).1
  plan := by
    rcases h.poisoned_or_steady with hp | hs
    · rw [Scheduler.plan_poisoned hp]
      exact .error rfl
    · exact hs.marked.plan_allows
  balanced hp := (h.poisoned_or_steady.resolve_left hp).balanced
  staffed hp := (h.poisoned_or_steady.resolve_left hp).staffed

/-- A run of one task through every step of the pipeline keeps its counts, and so does the run
once a second root poisons it. -/
theorem Driven.consistent_after_schedule :
    scheduledRun.phase = .done ∧ scheduledRun.Consistent ∧
      ((Command.insertRoot Double.zero).run.run.run scheduledRun).2.phase = .poisoned ∧
      ((Command.insertRoot Double.zero).run.run.run scheduledRun).2.Consistent := by
  have hfits : (Command.insertConstraints oneUnitGraph).Fits := by
    show ∀ t < oneUnitGraph.size, _
    decide
  have h : Driven (fun _ => Double.zero) 16 scheduledRun :=
    .step _ trivial (.step _ trivial (.step _ trivial (.step _ hfits
      (.step _ trivial (.step _ trivial .new)))))
  exact ⟨by decide +kernel, Driven.consistent h, by decide +kernel,
    Driven.consistent (.step _ trivial h)⟩

/-! A count that wraps. -/

/-- Two tasks without units, the first recorded `2 ^ 32` times as a dependency of the second: the
graph that as many calls of `addDependency 0 1` make. -/
def wrapGraph : TaskGraph := ⟨#[⟨[], List.replicate BarrierNode.inputLimit 1⟩, ⟨[], []⟩]⟩

theorem wrapGraph_inputs : wrapGraph.inputs = List.replicate BarrierNode.inputLimit 1 := by
  rw [TaskGraph.inputs, show wrapGraph.size = 2 from rfl, List.range_succ, List.range_one,
    List.flatMap_append, List.flatMap_singleton, List.flatMap_singleton,
    show wrapGraph.successors 1 = [] from rfl, List.append_nil]
  rfl

namespace Run

/-- The first task's pass over `wrapGraph`: its `2 ^ 32` edges from its exit, vertex `3`, bring
the entry of the second task, vertex `4`, round to awaiting nothing. -/
theorem ends_successorPass_wrapGraph {s : Scheduler} {xout out : Array Nat}
    (hbs : s.barriers = #[⟨2, 3⟩, ⟨4, 5⟩])
    (hx : s.store.slots[3]? = some ⟨.barrier (BarrierNode.new Double.zero), xout⟩)
    (hb : s.store.slots[4]? = some ⟨.barrier (BarrierNode.new Double.zero), out⟩)
    (hin : s.store.inputs [] 4 = 0) :
    Ends (successorPass wrapGraph 0 ⟨⟩) s (fun _ _ => False) fun r s' =>
      r = .yield ⟨⟩ ∧ s'.store.Waits 4 0 ∧ s'.store.inputs [] 4 = BarrierNode.inputLimit := by
  unfold successorPass
  refine Ends.bind_ok (run_get s) ?_
  have h1 : s.barriers[1]? = some ⟨4, 5⟩ := by rw [hbs]; rfl
  have hexit : (s.barriers[0]?.map (·.exit)).getD 0 = 3 := by rw [hbs]; rfl
  simp only [hexit, show wrapGraph.successors 0 = List.replicate BarrierNode.inputLimit 1 from rfl]
  refine Ends.bind (ends_linkPass_replicate h1 (by decide) hx rfl hb rfl (by decide)) ?_
  rintro _ s' ⟨-, -, hw, hin'⟩
  exact Ends.pure ⟨rfl, by simpa [BarrierNode.new] using hw, by rw [hin', hin, Nat.zero_add]⟩

/-- The constraints of `wrapGraph` after the root and one processor: no check fails, and the entry
of the second task ends awaiting nothing with `2 ^ 32` inputs still to be driven. -/
theorem ends_insertConstraints_wrapGraph :
    Ends (insertConstraints wrapGraph) staffedStart (fun _ _ => False) fun _ s =>
      s.phase = .constraintsInserted ∧ s.store.Waits 4 0 ∧
        s.store.inputs [] 4 = BarrierNode.inputLimit := by
  rw [insertConstraints_eq]
  refine Ends.bind_ok (run_enter (by decide +kernel) (by decide)) ?_
  refine Ends.finishStep_of ?_
  obtain ⟨⟨_, ro⟩, hro, hrn⟩ := Option.map_eq_some_iff.1
    (show staffedStart.store.slots[0]?.map Slot.node = some (.root Double.zero) by decide +kernel)
  dsimp only at hrn
  subst hrn
  refine Ends.bind_ok (run_rootVertex (by decide +kernel) hro) ?_
  dsimp only
  -- the state is closed up to here, so the kernel computes the barriers of both tasks
  obtain ⟨s₁, h₁, -, hbs, hx, hb, hin⟩ : ∃ s₁,
      (forIn (List.range wrapGraph.size) ⟨⟩ (barrierPass Double.zero)).run.run staffedStart =
        (.ok ⟨⟩, s₁) ∧ s₁.phase = .processorsCreated ∧ s₁.barriers = #[⟨2, 3⟩, ⟨4, 5⟩] ∧
      s₁.store.slots[3]?.map Slot.node = some (.barrier (BarrierNode.new Double.zero)) ∧
      s₁.store.slots[4]?.map Slot.node = some (.barrier (BarrierNode.new Double.zero)) ∧
      s₁.store.inputs [] 4 = 0 :=
    ⟨_, Prod.ext (by decide +kernel) rfl, by decide +kernel⟩
  obtain ⟨⟨_, xout⟩, hx, hxn⟩ := Option.map_eq_some_iff.1 hx
  obtain ⟨⟨_, out⟩, hb, hbn⟩ := Option.map_eq_some_iff.1 hb
  dsimp only at hxn hbn
  subst hxn hbn
  refine Ends.bind_ok h₁ ?_
  rw [show List.range wrapGraph.size = [0, 1] from rfl, List.forIn_cons, bind_assoc]
  refine Ends.bind (ends_successorPass_wrapGraph hbs hx hb hin) ?_
  rintro _ s₂ ⟨rfl, hw₂, hin₂⟩
  exact Ends.of_run_eq rfl (Ends.pure (s := s₂) ⟨rfl, hw₂, hin₂⟩)

end Run

/-- Without the bound on dependencies the counts break: the entry of the second task awaits nothing
with `2 ^ 32` inputs to come. -/
theorem wrapped_entry_awaits_nothing :
    let out := (Command.insertConstraints wrapGraph).run.run.run staffedStart
    ¬ (Command.insertConstraints wrapGraph).Fits ∧ out.1 = .ok () ∧
      out.2.phase = .constraintsInserted ∧ out.2.store.Waits 4 0 ∧
      out.2.store.inputs [] 4 = BarrierNode.inputLimit ∧ ¬ out.2.Balanced [] := by
  intro out
  have hfits : ¬ (Command.insertConstraints wrapGraph).Fits := by
    intro h
    have h1 := h 1 (by decide)
    rw [wrapGraph_inputs, List.count_replicate_self] at h1
    exact Nat.lt_irrefl _ h1
  rcases Run.ends_insertConstraints_wrapGraph with ⟨_, s', hx, hph, hw, hin⟩ | ⟨_, _, _, he⟩
  · have hout : out = (.ok (), s') := hx
    rw [hout]
    refine ⟨hfits, rfl, hph, hw, hin, fun hbal => ?_⟩
    obtain ⟨bar, o, hb, hw⟩ := hw
    have h := (hbal.barrier 4 bar o hb).1
    rw [hw, hin] at h
    exact absurd h (by decide)
  · exact he.elim

end ListScheduling
