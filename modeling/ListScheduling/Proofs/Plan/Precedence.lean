import ListScheduling.Proofs.Plan.Timelines
import ListScheduling.Proofs.Scheduler.Checks
import ListScheduling.Proofs.Direct.Paths

/-!
Precedence in the plan of a whole run.
-/
namespace ListScheduling.Direct

open Double

variable {P : Problem} {ρ : State}

section Entries

theorem exists_unit_of_mem_entries {e : PlanEntry}
    (he : e ∈ (P.units.zipIdx P.unitBase).map (entryOf P ρ)) :
    ∃ u v, P.Valid u ∧ e = entryOf P ρ (u, v) := by
  obtain ⟨⟨u, v⟩, hx, rfl⟩ := List.mem_map.1 he
  exact ⟨u, v, P.mem_units.1 (List.fst_mem_of_mem_zipIdx hx), rfl⟩

theorem exists_entry_iff {u : UnitId} :
    (∃ e ∈ (P.units.zipIdx P.unitBase).map (entryOf P ρ), e.id = u) ↔ P.Valid u := by
  constructor
  · rintro ⟨e, he, rfl⟩
    obtain ⟨w, v, hw, rfl⟩ := exists_unit_of_mem_entries he
    exact hw
  · intro hu
    rw [← P.mem_units, ← List.zipIdx_map_fst P.unitBase P.units] at hu
    obtain ⟨x, hx, rfl⟩ := List.mem_map.1 hu
    exact ⟨entryOf P ρ x, List.mem_map_of_mem hx, rfl⟩

theorem Problem.getElem?_unitTimes {u : UnitId} (hu : P.Valid u) :
    (P.unitTimes u.task)[u.subtask]? = some (P.execTime u) := by
  have hk : u.subtask < (P.unitTimes u.task).length := hu.2
  rw [Problem.execTime, List.getElem?_eq_getElem hk, Option.getD_some]

theorem Inv.entryOf_assignment {es : List Event} (hI : Inv P ρ es) {pl : Placement}
    (hpl : pl ∈ ρ.log) (v : Nat) : (entryOf P ρ (pl.id, v)).assignment = pl.assignment := by
  simp only [entryOf, PlanEntry.assignment, Placement.assignment, hI.log_unit pl hpl,
    Option.getD_some]

variable (hI : Inv P ρ []) (hT : TimeInv P ρ []) (hO : OrderInv P ρ [])
include hI hT hO

theorem entryOf_times {u : UnitId} (hu : (ρ.unit u).processor.isSome = true) (v : Nat) :
    P.release.le (entryOf P ρ (u, v)).ready ∧
      (entryOf P ρ (u, v)).finish = (entryOf P ρ (u, v)).ready + (entryOf P ρ (u, v)).execTime := by
  refine ⟨le_trans (hT.begin_ge u.task) (hT.placed_unit hI hu).1, ?_⟩
  obtain ⟨pl, hpl, rfl⟩ := List.mem_map.1 (hI.placed_mem u hu)
  simp only [entryOf, hI.log_unit pl hpl]
  exact hO.placed_finish pl hpl

theorem entryOf_path (hL : LogOrdered P ρ.log) {u w : UnitId} (hu : P.Valid u) (hw : P.Valid w)
    (hpath : Relation.TransGen P.graph.Edge u.task w.task)
    (hwp : (ρ.unit w).processor.isSome = true) (v v' : Nat) :
    (entryOf P ρ (u, v)).finish.le (entryOf P ρ (w, v')).ready ∧
      ∀ b : Nat, (ρ.log.map Placement.assignment)[b]? = some (entryOf P ρ (w, v')).assignment →
        ∃ a < b, (ρ.log.map Placement.assignment)[a]? = some (entryOf P ρ (u, v)).assignment := by
  refine ⟨(hO.finish_le_ready_of_path hI hT hu hw hpath hwp).2, fun b hb => ?_⟩
  rw [List.getElem?_map, Option.map_eq_some_iff] at hb
  obtain ⟨pl, hplb, hpla⟩ := hb
  obtain ⟨hblt, rfl⟩ := List.getElem?_eq_some_iff.1 hplb
  -- the placement at `b` is the second unit's, so the first unit was placed before it
  have hid : ρ.log[b].id = w := congrArg Assignment.id hpla
  obtain ⟨pl', hpl', rfl⟩ := List.mem_map.1 (hL b hblt u hu (hid ▸ hpath))
  obtain ⟨a, ha, rfl⟩ := List.mem_take_iff_getElem.1 hpl'
  have hab : a < b := Nat.lt_of_lt_of_le ha (Nat.min_le_left _ _)
  have hal : a < ρ.log.length := Nat.lt_of_lt_of_le ha (Nat.min_le_right _ _)
  refine ⟨a, hab, ?_⟩
  rw [List.getElem?_map, List.getElem?_eq_getElem hal, Option.map_some,
    hI.entryOf_assignment (List.getElem_mem hal)]

end Entries

section Pipeline

variable {split : Split} {limit : Nat}

/-- A whole run from a fresh scheduler that reaches `done` respects precedence along every path of
its graph. -/
theorem pipeline_respects_precedence (hsplit : P.graph.unitTimes split = P.unitTimes)
    (hroom : P.nodeBase + P.totalUnits ≤ (Store.withLimit limit).limit)
    (hdeg : ∀ t < P.size, P.inDegree t < BarrierNode.inputLimit) (source : Option Nat) :
    let out := (Run.pipeline P.release P.processors P.graph split source).run.run
      (Scheduler.new P.priority (Store.withLimit limit))
    out.2.phase = .done → ∃ p, out.2.plan = .ok p ∧
      (∀ u, (∃ e ∈ p.entries.toList, e.id = u) ↔ P.Valid u) ∧
      (∀ e ∈ p.entries.toList, P.release.le e.ready ∧ e.finish = e.ready + e.execTime ∧
        (P.graph.unitTimes split e.id.task)[e.id.subtask]? = some e.execTime ∧
        e.assignment ∈ out.2.assignments) ∧
      ∀ e ∈ p.entries.toList, ∀ e' ∈ p.entries.toList,
        Relation.TransGen P.graph.Edge e.id.task e'.id.task →
        e.finish.le e'.ready ∧ ∀ b : Nat, out.2.assignments[b]? = some e'.assignment →
          ∃ a < b, out.2.assignments[a]? = some e.assignment := by
  intro out hdone
  have hrun : (Run.pipeline P.release P.processors P.graph split source).run.run
      (Scheduler.new P.priority (Store.withLimit limit)) = (out.1, out.2) := rfl
  have hok := Run.pipeline_ok_of_done hrun hdone
  have hfin : out.2.Finished P.release P.processors := Run.finished_pipeline (by rw [hrun, hok])
  obtain ⟨hr, hp, hg, hx⟩ := Run.accepted_of_pipeline_ok (by rw [hrun, hok])
  rw [hsplit] at hx
  have h := Renders.pipeline hsplit hr hp hg hx hroom hdeg source
  set ρ := schedule P (P.linked source)
  have hI : Inv P ρ [] := Inv.schedule hg _
  have hvalid : ∀ u, P.Valid u → (P.execTime u).isValidTime = true :=
    fun _ hu => P.execTime_isValidTime hx hu
  have hT : TimeInv P ρ [] := TimeInv.schedule hg (not_isNaN_of_isFinite hr) hvalid _
  have hO : OrderInv P ρ [] := OrderInv.schedule hvalid hg (not_isNaN_of_isFinite hr) _
  have hplaced : ∀ u, P.Valid u → (ρ.unit u).processor.isSome = true := by
    intro u hu
    have hnone := List.filter_eq_nil_iff.1 (h.unassigned.symm.trans hfin.assigned) u
      (P.mem_units.2 hu)
    simpa [Option.isSome_iff_ne_none] using hnone
  obtain ⟨p, hplan, -, hentries, -⟩ := h.plan hfin.done hplaced
  have hass := h.assignments hI
  refine ⟨p, hplan, fun u => hentries ▸ exists_entry_iff, fun e he => ?_,
    fun e he e' he' hpath => ?_⟩
  · rw [hentries] at he
    obtain ⟨u, v, hu, rfl⟩ := exists_unit_of_mem_entries he
    obtain ⟨pl, hpl, hid⟩ := List.mem_map.1 (hI.placed_mem u (hplaced u hu))
    refine ⟨(entryOf_times hI hT hO (hplaced u hu) v).1, (entryOf_times hI hT hO (hplaced u hu) v).2,
      hsplit ▸ Problem.getElem?_unitTimes hu, ?_⟩
    rw [hass, ← hid, hI.entryOf_assignment hpl]
    exact List.mem_map_of_mem hpl
  · rw [hentries] at he he'
    obtain ⟨u, v, hu, rfl⟩ := exists_unit_of_mem_entries he
    obtain ⟨w, v', hw, rfl⟩ := exists_unit_of_mem_entries he'
    rw [hass]
    exact entryOf_path hI hT hO (LogOrdered.schedule hg _) hu hw hpath (hplaced w hw) v v'

/-- The diamond on two processors reaches `done`, and its first task's unit finishes no later
than its last task's is ready. -/
theorem pipeline_respects_precedence_diamond :
    let out := (Run.pipeline Problem.diamond.release 2 diamondGraph .subtasks none).run.run
      (Scheduler.new Problem.diamond.priority (Store.withLimit 100))
    Problem.diamond.nodeBase + Problem.diamond.totalUnits ≤ (Store.withLimit 100).limit ∧
      (∀ t < Problem.diamond.size, Problem.diamond.inDegree t < BarrierNode.inputLimit) ∧
      out.2.phase = .done ∧ ∃ p, out.2.plan = .ok p ∧
        ∀ e ∈ p.entries.toList, ∀ e' ∈ p.entries.toList, e.id.task = 0 → e'.id.task = 3 →
          e.finish.le e'.ready := by
  intro out
  have hroom : Problem.diamond.nodeBase + Problem.diamond.totalUnits ≤
      (Store.withLimit 100).limit := by decide
  have hdeg : ∀ t < Problem.diamond.size, Problem.diamond.inDegree t < BarrierNode.inputLimit := by
    decide
  have hdone : out.2.phase = .done := by decide +kernel
  obtain ⟨p, hp, -, -, hpath⟩ := pipeline_respects_precedence rfl hroom hdeg none hdone
  refine ⟨hroom, hdeg, hdone, p, hp, fun e he e' he' h0 h3 => (hpath e he e' he' ?_).1⟩
  rw [h0, h3]
  exact .tail (.single (show 2 ∈ diamondGraph.successors 0 by decide))
    (show 3 ∈ diamondGraph.successors 2 by decide)

end Pipeline

end ListScheduling.Direct
