import ListScheduling.Proofs.Refinement.Pipeline
import ListScheduling.Proofs.Direct.Firing

/-!
How a whole run ends: which tasks fire, which units are assigned, and what list scheduling reports.
-/
namespace ListScheduling.Direct

open Run

variable {P : Problem} {L : List Nat}

/-- The units of the tasks that do not fire, in vertex order. -/
def Problem.unfired (P : Problem) (L : List Nat) : List UnitId :=
  P.units.filter fun u => !decide (P.Fires L u.task)

/-- How a run from the tasks `L` ends, by the tasks that fire. -/
structure EndsAsFiring (P : Problem) (L : List Nat) (out : Except RunError Unit × Scheduler) :
    Prop where
  outcome : out.1 = if ∀ t < P.size, 0 < P.unitCount t → P.Fires L t then .ok ()
    else .error (.unscheduled (P.unfired L))
  barriers : ∀ t < P.size, ∃ bs entry exit, out.2.barriers[t]? = some bs ∧
    out.2.store.barrierAt bs.entry = .ok entry ∧ out.2.store.barrierAt bs.exit = .ok exit ∧
    (entry.satisfied = true ↔ P.Fires L t) ∧ (exit.satisfied = true ↔ P.Fires L t)
  assigned : ∀ u, P.Valid u →
    (out.2.assignments.map (·.id)).count u = if P.Fires L u.task then 1 else 0

theorem unfired_eq_nil_iff : P.unfired L = [] ↔ ∀ t < P.size, 0 < P.unitCount t → P.Fires L t := by
  simp only [Problem.unfired, List.filter_eq_nil_iff, Bool.not_eq_true', decide_eq_false_iff_not,
    not_not, Problem.mem_units, Problem.Valid]
  constructor
  · intro h t ht hk
    exact h ⟨t, 0⟩ ⟨ht, hk⟩
  · intro h u hu
    exact h u.task hu.1 (Nat.lt_of_le_of_lt (Nat.zero_le _) hu.2)

theorem EndsAsFiring.fires_of_ok {out : Except RunError Unit × Scheduler}
    (h : EndsAsFiring P L out) (hok : out.1 = .ok ()) :
    ∀ t < P.size, 0 < P.unitCount t → P.Fires L t := by
  by_contra hn
  rw [h.outcome, if_neg hn] at hok
  exact absurd hok nofun

section Whole

variable {split : Split} {limit : Nat} {s : Scheduler}

theorem Renders.unassigned_schedule (hg : P.graph.WellFormed) (hp : 0 < P.processors)
    (hL : ∀ t ∈ L, t < P.size ∧ P.inDegree t = 0) (h : Renders P s (schedule P L)) :
    s.store.unassigned = P.unfired L := by
  rw [h.unassigned, Problem.unfired]
  refine List.filter_congr fun u hu => ?_
  have hiff := placed_schedule_iff hg hp hL (P.mem_units.1 hu)
  cases hf : decide (P.Fires L u.task)
  · have hn : ¬ P.Fires L u.task := of_decide_eq_false hf
    rw [← hiff] at hn
    simpa using hn
  · have hy : P.Fires L u.task := of_decide_eq_true hf
    rw [← hiff] at hy
    simpa [Option.isNone_iff_eq_none, Option.isSome_iff_ne_none] using hy

theorem Renders.barriers_schedule (hg : P.graph.WellFormed) (hp : 0 < P.processors)
    (hL : ∀ t ∈ L, t < P.size ∧ P.inDegree t = 0) (h : Renders P s (schedule P L)) {t : Nat}
    (ht : t < P.size) : ∃ bs entry exit, s.barriers[t]? = some bs ∧
      s.store.barrierAt bs.entry = .ok entry ∧ s.store.barrierAt bs.exit = .ok exit ∧
      (entry.satisfied = true ↔ P.Fires L t) ∧ (exit.satisfied = true ↔ P.Fires L t) :=
  ⟨_, _, _, h.barrier_at ht, Store.barrierAt_eq (h.entry ht), Store.barrierAt_eq (h.exit ht),
    begun_schedule_iff hg hp hL, ended_schedule_iff hg hp hL ht⟩

/-- A whole run started from tasks that await no input renders the end of the direct run, and
ends as its list scheduling does. -/
theorem run_pipeline_schedule (hsplit : P.graph.unitTimes split = P.unitTimes)
    (hr : P.release.isFinite = true) (hp : 0 < P.processors) (hg : P.graph.WellFormed)
    (hx : ∀ t < P.size, ∀ x ∈ P.unitTimes t, x.isValidTime = true)
    (hroom : P.nodeBase + P.totalUnits ≤ (Store.withLimit limit).limit)
    (hdeg : ∀ t < P.size, P.inDegree t < BarrierNode.inputLimit) {source : Option Nat}
    (hsrc : ∀ t ∈ source, t < P.size ∧ P.inDegree t = 0) :
    ∃ s', Renders P s' (schedule P (P.linked source)) ∧
      (Run.pipeline P.release P.processors P.graph split source).run.run
        (Scheduler.new P.priority (Store.withLimit limit)) =
      if s'.store.unassigned.isEmpty then (.ok (), { s' with phase := .done })
      else (.error (.unscheduled s'.store.unassigned), { s' with phase := .poisoned }) := by
  obtain ⟨s₁, hbuild, h₁, hph₁⟩ := Renders.build hsplit hr hp hg hx hroom hdeg
  have hnan : ∀ u, P.Valid u → (P.execTime u).isNaN = false := fun _ => P.execTime_isNaN hx
  unfold Run.pipeline
  rw [run_bind_ok hbuild]
  cases source with
  | none =>
    obtain ⟨_, s₂, hstart, h₂, hph₂⟩ := (h₁.startEntries hg hph₁).ok fun _ h => h
    dsimp only
    rw [run_bind_ok hstart]
    obtain ⟨s₃, h₃, -, hls⟩ := h₂.listSchedule hg hnan hp (Inv.initial.foldl_start hg _) hph₂
    exact ⟨s₃, h₃, hls⟩
  | some t =>
    dsimp only
    rcases h₁.startSource hg hph₁ t with ⟨_, s₂, hstart, -, -, h₂, hph₂⟩ | ⟨_, s₂, -, hnot, -⟩
    · rw [run_bind_ok hstart]
      obtain ⟨s₃, h₃, -, hls⟩ := h₂.listSchedule hg hnan hp (Inv.initial.start hg t) hph₂
      exact ⟨s₃, h₃, hls⟩
    · exact absurd (hsrc t rfl) hnot

theorem pipeline_done_of_ok (hsplit : P.graph.unitTimes split = P.unitTimes)
    (hr : P.release.isFinite = true) (hp : 0 < P.processors) (hg : P.graph.WellFormed)
    (hx : ∀ t < P.size, ∀ x ∈ P.unitTimes t, x.isValidTime = true)
    (hroom : P.nodeBase + P.totalUnits ≤ (Store.withLimit limit).limit)
    (hdeg : ∀ t < P.size, P.inDegree t < BarrierNode.inputLimit) {source : Option Nat}
    (hsrc : ∀ t ∈ source, t < P.size ∧ P.inDegree t = 0)
    (hok : ((Run.pipeline P.release P.processors P.graph split source).run.run
      (Scheduler.new P.priority (Store.withLimit limit))).1 = .ok ()) :
    ((Run.pipeline P.release P.processors P.graph split source).run.run
      (Scheduler.new P.priority (Store.withLimit limit))).2.phase = .done := by
  obtain ⟨s', -, hrun⟩ := run_pipeline_schedule hsplit hr hp hg hx hroom hdeg hsrc
  rw [hrun] at hok ⊢
  by_cases hc : s'.store.unassigned.isEmpty
  · rw [if_pos hc]
  · rw [if_neg hc] at hok
    exact absurd hok nofun

theorem linked_awaits_nothing {source : Option Nat}
    (hsrc : ∀ t ∈ source, t < P.size ∧ P.inDegree t = 0) :
    ∀ t ∈ P.linked source, t < P.size ∧ P.inDegree t = 0 := by
  cases source with
  | none =>
    intro t ht
    simp only [Problem.linked, Problem.entries, List.mem_filter, List.mem_range,
      decide_eq_true_eq] at ht
    exact ht
  | some s =>
    intro t ht
    rw [Problem.linked, List.mem_singleton] at ht
    exact ht ▸ hsrc s rfl

/-- A whole run, on a store with room for it and started from the entries or from one task that
awaits no input, ends as the firing tasks say. -/
theorem pipeline_endsAsFiring (hsplit : P.graph.unitTimes split = P.unitTimes)
    (hr : P.release.isFinite = true) (hp : 0 < P.processors) (hg : P.graph.WellFormed)
    (hx : ∀ t < P.size, ∀ x ∈ P.unitTimes t, x.isValidTime = true)
    (hroom : P.nodeBase + P.totalUnits ≤ (Store.withLimit limit).limit)
    (hdeg : ∀ t < P.size, P.inDegree t < BarrierNode.inputLimit) (source : Option Nat)
    (hsrc : ∀ t ∈ source, t < P.size ∧ P.inDegree t = 0) :
    EndsAsFiring P (P.linked source) ((Run.pipeline P.release P.processors P.graph split source).run.run
      (Scheduler.new P.priority (Store.withLimit limit))) := by
  obtain ⟨s', h', hrun⟩ := run_pipeline_schedule hsplit hr hp hg hx hroom hdeg hsrc
  have hL := linked_awaits_nothing hsrc
  have hun := h'.unassigned_schedule hg hp hL
  -- both outcomes keep the rendering; only the phase differs
  have hR : Renders P ((Run.pipeline P.release P.processors P.graph split source).run.run
      (Scheduler.new P.priority (Store.withLimit limit))).2 (schedule P (P.linked source)) := by
    rw [hrun]
    split
    · exact h'.withPhase _
    · exact h'.withPhase _
  refine ⟨?_, fun t ht => hR.barriers_schedule hg hp hL ht, fun u hu => ?_⟩
  · rw [hrun, hun]
    by_cases hall : ∀ t < P.size, 0 < P.unitCount t → P.Fires (P.linked source) t
    · rw [if_pos (List.isEmpty_iff.2 (unfired_eq_nil_iff.2 hall)), if_pos hall]
    · rw [if_neg (fun he => hall (unfired_eq_nil_iff.1 (List.isEmpty_iff.1 he))), if_neg hall]
  · rw [hR.assignments (Inv.schedule hg _), List.map_map]
    exact count_log_schedule hg hp hL hu

/-- Two tasks that wait for each other, of one unit each, and a third on its own; every unit is
`1.0` long. -/
def loopGraph : TaskGraph :=
  ⟨#[⟨[⟨0x3FF0000000000000⟩], [1]⟩, ⟨[⟨0x3FF0000000000000⟩], [0]⟩,
    ⟨[⟨0x3FF0000000000000⟩], []⟩]⟩

/-- The loop on one processor, released at `0.0`, every unit of priority `0.0`. -/
def Problem.loop : Problem :=
  ⟨loopGraph, loopGraph.unitTimes .subtasks, fun _ => Double.zero, 1, Double.zero⟩

/-- A whole run with room for it ends as the firing tasks say; from the entries of an acyclic graph
every task fires. -/
theorem pipeline_fires (hsplit : P.graph.unitTimes split = P.unitTimes)
    (hr : P.release.isFinite = true) (hp : 0 < P.processors) (hg : P.graph.WellFormed)
    (hx : ∀ t < P.size, ∀ x ∈ P.unitTimes t, x.isValidTime = true)
    (hroom : P.nodeBase + P.totalUnits ≤ (Store.withLimit limit).limit)
    (hdeg : ∀ t < P.size, P.inDegree t < BarrierNode.inputLimit) (source : Option Nat)
    (hsrc : ∀ t ∈ source, t < P.size ∧ P.inDegree t = 0) :
    let out := (Run.pipeline P.release P.processors P.graph split source).run.run
      (Scheduler.new P.priority (Store.withLimit limit))
    EndsAsFiring P (P.linked source) out ∧ (P.graph.Acyclic → source = none → out.1 = .ok ()) := by
  intro out
  have h : EndsAsFiring P (P.linked source) out :=
    pipeline_endsAsFiring hsplit hr hp hg hx hroom hdeg source hsrc
  refine ⟨h, fun ha hs => ?_⟩
  subst hs
  have hall : ∀ t < P.size, 0 < P.unitCount t → P.Fires (P.linked none) t :=
    fun t ht _ => P.fires_entries_of_acyclic ha ht
  rw [h.outcome, if_pos hall]

theorem pipeline_fires_loop :
    Problem.loop.nodeBase + Problem.loop.totalUnits ≤ (Store.withLimit 100).limit ∧
    let out := (Run.pipeline Problem.loop.release 1 loopGraph .subtasks none).run.run
      (Scheduler.new Problem.loop.priority (Store.withLimit 100))
    EndsAsFiring Problem.loop Problem.loop.entries out ∧
      (loopGraph.Acyclic → (none : Option Nat) = none → out.1 = .ok ()) :=
  ⟨by decide, pipeline_fires rfl (by decide) (by decide)
    (by unfold TaskGraph.WellFormed; decide) (by decide) (by decide) (by decide +kernel) none
    (by simp)⟩

/-- One task of one unit, `1.0` long, on one processor. -/
def Problem.single : Problem :=
  ⟨⟨#[⟨[⟨0x3FF0000000000000⟩], []⟩]⟩,
    (⟨#[⟨[⟨0x3FF0000000000000⟩], []⟩]⟩ : TaskGraph).unitTimes .subtasks,
    fun _ => Double.zero, 1, Double.zero⟩

/-- Without room a run stops with an overflow even when every task fires. -/
theorem pipeline_overflows_without_room :
    (∀ t < Problem.single.size, 0 < Problem.single.unitCount t →
      Problem.single.Fires Problem.single.entries t) ∧
    ((Run.pipeline Problem.single.release 1 Problem.single.graph .subtasks none).run.run
      (Scheduler.new Problem.single.priority (Store.withLimit 5))).1 = .error (.store (.overflow 5)) :=
  ⟨by decide, by decide +kernel⟩

end Whole

end ListScheduling.Direct
