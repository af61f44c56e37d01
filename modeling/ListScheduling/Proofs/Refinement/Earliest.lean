import ListScheduling.Proofs.Refinement.Readout
import ListScheduling.Proofs.Scheduler.Phases

/-!
The earliest starts, and a run with a processor for every unit.
-/
namespace ListScheduling

namespace Direct

open Double

namespace Problem

variable (P : Problem)

/-- The tasks whose ends the begin of `t` waits for, each once. -/
def predecessors (t : Nat) : List Nat :=
  (List.range P.size).filter fun s => t ∈ P.graph.successors s

/-- The finish of task `t` started at `B t`: the latest of that start and the ends of its units
run from it. -/
def earliestFinish (B : Nat → Double) (t : Nat) : Double :=
  ((P.unitTimes t).map (B t + ·)).foldl Double.maxNum (B t)

/-- The start of task `t` when the tasks it waits for start at `B`: the latest of the release
time and their finishes. -/
def earliestBegin (B : Nat → Double) (t : Nat) : Double :=
  ((P.predecessors t).map (P.earliestFinish B)).foldl Double.maxNum P.release

/-- `B` gives every task the start the tasks it waits for allow, up to the sign of a zero. -/
def EarliestStart (B : Nat → Double) : Prop :=
  ∀ t < P.size, (B t).numEq (P.earliestBegin B t) = true

instance (B : Nat → Double) : Decidable (P.EarliestStart B) :=
  inferInstanceAs (Decidable (∀ t < P.size, _))

theorem mem_predecessors {s t : Nat} :
    s ∈ P.predecessors t ↔ s < P.size ∧ t ∈ P.graph.successors s := by
  simp [predecessors]

end Problem

section Unique

variable {P : Problem} {B B' : Nat → Double}

theorem earliestFinish_numEq {t : Nat} (hx : ∀ x ∈ P.unitTimes t, x.isFinite = true)
    (h : (B t).numEq (B' t)) : (P.earliestFinish B t).numEq (P.earliestFinish B' t) :=
  foldl_maxNum_map_numEq h fun x hx' => numEq_add_of_numEq h (hx x hx')

theorem earliestStart_unique (ha : P.graph.Acyclic) (hr : P.release.isNaN = false)
    (hx : ∀ t < P.size, ∀ x ∈ P.unitTimes t, x.isFinite = true) (hB : P.EarliestStart B)
    (hB' : P.EarliestStart B') {t : Nat} (ht : t < P.size) : (B t).numEq (B' t) := by
  obtain ⟨rank, hrank⟩ := ha
  induction hn : rank t using Nat.strong_induction_on generalizing t with
  | _ n ih =>
    have hpred : ∀ s ∈ P.predecessors t,
        (P.earliestFinish B s).numEq (P.earliestFinish B' s) := by
      intro s hs
      obtain ⟨hs, hts⟩ := P.mem_predecessors.1 hs
      exact earliestFinish_numEq (hx s hs) (ih (rank s) (hn ▸ hrank s hs t hts) hs rfl)
    exact numEq_trans (hB t ht) (numEq_trans (foldl_maxNum_map_numEq (numEq_refl hr) hpred)
      (numEq_symm (hB' t ht)))

end Unique

variable (P : Problem)

/-- What the begins hold with the deliveries `es` pending. -/
structure StartInv (ρ : State) (es : List Event) : Prop where
  begin_origin : ∀ t, (ρ.task t).beginTime = P.release ∨ ∃ s < P.size,
    t ∈ P.graph.successors s ∧ (ρ.task s).ended = true ∧ (ρ.task t).beginTime = (ρ.task s).endTime
  begin_bound : ∀ s < P.size, ∀ t ∈ P.graph.successors s, (ρ.task s).ended = true →
    Event.input s t ∉ es → (ρ.task s).endTime.le (ρ.task t).beginTime
  input_ended : ∀ s t, Event.input s t ∈ es →
    (ρ.task s).ended = true ∧ t ∈ P.graph.successors s
  unplaced_ready : ∀ u, (ρ.unit u).processor = none →
    (ρ.unit u).timing.ready.le (ρ.task u.task).beginTime
  placed_ready : ∀ pl ∈ ρ.log, pl.ready.numEq (ρ.task pl.id.task).beginTime
  placed_finish : ∀ pl ∈ ρ.log, pl.finish = pl.ready + P.execTime pl.id

variable {P} {ρ : State} {es : List Event}

section Step

/-- The begin of a task that has not begun moves to the later of its time and `x`, the release time
or the end of a task it waits for that ended. -/
theorem StartInv.raise (hI : Inv P ρ es) (hT : TimeInv P ρ es) (h : StartInv P ρ es) {t : Nat}
    (hnb : (ρ.task t).begun = false) {ts : TaskState} {x : Double}
    (hts : ts.beginTime = Double.maxNum (ρ.task t).beginTime x)
    (hend : ts.endTime = (ρ.task t).endTime) (hended : ts.ended = (ρ.task t).ended)
    (hx : x = P.release ∨ ∃ s < P.size,
      t ∈ P.graph.successors s ∧ (ρ.task s).ended = true ∧ x = (ρ.task s).endTime)
    {es' : List Event} (hin : ∀ s y, Event.input s y ∈ es' → Event.input s y ∈ es)
    (hout : ∀ s y, Event.input s y ∈ es → Event.input s y ∉ es' →
      y = t ∧ (ρ.task s).endTime.le x) :
    StartInv P (ρ.setTask t ts) es' := by
  -- ends and their firing are untouched, and the begin only moves forward
  have hsame : ∀ s, ((ρ.setTask t ts).task s).ended = (ρ.task s).ended ∧
      ((ρ.setTask t ts).task s).endTime = (ρ.task s).endTime := by
    intro s
    rw [setTask_task]
    split
    · subst s
      exact ⟨hended, hend⟩
    · exact ⟨rfl, rfl⟩
  have hbn := isNaN_eq_false_of_le_right (hT.begin_ge t)
  have hxn : x.isNaN = false := by
    rcases hx with rfl | ⟨s, -, -, -, rfl⟩
    · exact isNaN_eq_false_of_le_left (hT.begin_ge t)
    · exact isNaN_eq_false_of_le_right (hT.end_ge s)
  have hgrow : ∀ y, (ρ.task y).beginTime.le ((ρ.setTask t ts).task y).beginTime := by
    intro y
    rw [setTask_task]
    split
    · subst y
      rw [hts]
      exact le_maxNum_left x hbn
    · exact le_refl_of_not_isNaN (isNaN_eq_false_of_le_right (hT.begin_ge y))
  have horigin : ∀ y z, z = P.release ∨ (∃ s < P.size, y ∈ P.graph.successors s ∧
      (ρ.task s).ended = true ∧ z = (ρ.task s).endTime) →
      z = P.release ∨ ∃ s < P.size, y ∈ P.graph.successors s ∧
        ((ρ.setTask t ts).task s).ended = true ∧ z = ((ρ.setTask t ts).task s).endTime := by
    rintro y z (hz | ⟨s, hs, hys, he, hz⟩)
    · exact .inl hz
    · exact .inr ⟨s, hs, hys, (hsame s).1 ▸ he, (hsame s).2 ▸ hz⟩
  refine ⟨fun y => ?_, fun s hs y hy he hn => ?_, fun s y hm => ?_, fun u hu => ?_,
    fun pl hpl => ?_, h.placed_finish⟩
  · by_cases hyt : y = t
    · subst hyt
      rw [setTask_task_self, hts]
      rcases maxNum_eq_or (ρ.task y).beginTime x with hm | hm <;> rw [hm]
      · exact horigin _ _ (h.begin_origin y)
      · exact horigin _ _ hx
    · rw [setTask_task_of_ne hyt]
      exact horigin _ _ (h.begin_origin y)
  · rw [(hsame s).1] at he
    rw [(hsame s).2]
    by_cases hm : Event.input s y ∈ es
    · obtain ⟨rfl, hle⟩ := hout s y hm hn
      rw [setTask_task_self, hts]
      exact le_trans hle (le_maxNum_right _ hxn)
    · exact le_trans (h.begin_bound s hs y hy he hm) (hgrow y)
  · obtain ⟨he, hy⟩ := h.input_ended s y (hin s y hm)
    exact ⟨(hsame s).1 ▸ he, hy⟩
  · exact le_trans (h.unplaced_ready u hu) (hgrow u.task)
  · -- a placed unit's task began, so it is not the one that moved
    have hpt : pl.id.task ≠ t := fun he => by
      have := hI.begun_of_logged hpl
      rw [he, hnb] at this
      cases this
    rw [setTask_log] at hpl
    rw [setTask_task_of_ne hpt]
    exact h.placed_ready pl hpl

variable {pred t k : Nat} {rest : List Event}

/-- An input of a begin, from an end that fired: the begin moves to the later of its time and
that end. Under the invariant of the scheduler the begin still waits for it. -/
theorem StartInv.input (hI : Inv P ρ (.input pred t :: rest))
    (hT : TimeInv P ρ (.input pred t :: rest)) (h : StartInv P ρ (.input pred t :: rest)) :
    StartInv P (step P ρ (.input pred t)).1 ((step P ρ (.input pred t)).2 ++ rest) := by
  obtain ⟨hpred, ht⟩ : pred < P.size ∧ t < P.size := hI.events_wf _ List.mem_cons_self
  have hr := hI.remaining_eq t ht
  simp only [List.countP_cons, Event.isInputTo_input, beq_self_eq_true, if_true] at hr
  have hnb : (ρ.task t).begun = false := by
    cases hb : (ρ.task t).begun
    · rfl
    · have := hI.remaining_of_begun t hb
      omega
  obtain ⟨hpe, hsucc⟩ := h.input_ended pred t List.mem_cons_self
  -- the begin's own deliveries hold no input, so only this one is taken
  have hin : ∀ extra : List Event, (∀ s y, Event.input s y ∉ extra) →
      ∀ s y, Event.input s y ∈ extra ++ rest → Event.input s y ∈ Event.input pred t :: rest :=
    fun extra hx s y hm => List.mem_cons_of_mem _ ((List.mem_append.1 hm).resolve_left (hx s y))
  have hout : ∀ extra : List Event, ∀ s y, Event.input s y ∈ Event.input pred t :: rest →
      Event.input s y ∉ extra ++ rest → y = t ∧ (ρ.task s).endTime.le (ρ.task pred).endTime := by
    intro extra s y hm hn
    rcases List.mem_cons.1 hm with he | hm
    · rw [Event.input.injEq] at he
      obtain ⟨rfl, rfl⟩ := he
      exact ⟨rfl, le_refl_of_not_isNaN (isNaN_eq_false_of_le_right (hT.end_ge s))⟩
    · exact absurd (List.mem_append_right _ hm) hn
  have hx : (ρ.task pred).endTime = P.release ∨ ∃ s < P.size, t ∈ P.graph.successors s ∧
      (ρ.task s).ended = true ∧ (ρ.task pred).endTime = (ρ.task s).endTime :=
    .inr ⟨pred, hpred, hsucc, hpe, rfl⟩
  simp only [step]
  rw [if_pos ⟨ht, by omega⟩]
  split
  · refine h.raise hI hT hnb (by rfl) (by rfl) (by rfl) hx (hin _ fun s y hm => ?_) (hout _)
    unfold Problem.beginEvents at hm
    split at hm
    · simp at hm
    · simp at hm
  · exact h.raise hI hT hnb (by rfl) (by rfl) (by rfl) hx (hin [] fun _ _ h => by cases h) (hout [])

/-- A release readies its unit at the later of its ready time and its task's begin, which is
the begin, since the unit was not placed. -/
theorem StartInv.release (h : StartInv P ρ (.release t k :: rest)) :
    StartInv P (step P ρ (.release t k)).1 ((step P ρ (.release t k)).2 ++ rest) := by
  have hold : ∀ s y, Event.input s y ∈ [] ++ rest → Event.input s y ∈ Event.release t k :: rest :=
    fun s y hm => List.mem_cons_of_mem _ hm
  refine ⟨h.begin_origin, fun s hs y hy he hn => h.begin_bound s hs y hy he fun hm => hn ?_,
    fun s y hm => h.input_ended s y (hold s y hm), fun u hu => ?_, h.placed_ready,
    h.placed_finish⟩
  · rcases List.mem_cons.1 hm with he | hm
    · cases he
    · exact hm
  · show (Function.update ρ.unit ⟨t, k⟩ _ u).timing.ready.le (ρ.task u.task).beginTime
    by_cases hut : u = ⟨t, k⟩
    · subst hut
      have hu' : (ρ.unit ⟨t, k⟩).processor = none := by
        have : (Function.update ρ.unit ⟨t, k⟩ _ ⟨t, k⟩).processor = none := hu
        rwa [Function.update_self] at this
      have hle := h.unplaced_ready _ hu'
      simp only [Function.update_self, Timing.advance_ready]
      exact maxNum_le hle (le_refl_of_not_isNaN (isNaN_eq_false_of_le_right hle))
    · have hu' : (ρ.unit u).processor = none := by
        have : (Function.update ρ.unit ⟨t, k⟩ _ u).processor = none := hu
        rwa [Function.update_of_ne hut] at this
      rw [Function.update_of_ne hut]
      exact h.unplaced_ready u hu'

/-- An end that has not fired takes an input: its time and count change, and when it fires the
inputs it sends to its successors' begins are pending. -/
theorem StartInv.setEnd {ev : Event} (h : StartInv P ρ (ev :: rest))
    (hev : ∀ s y, ev ≠ .input s y) (hne : (ρ.task t).ended = false) {ts : TaskState}
    (hbeg : ts.beginTime = (ρ.task t).beginTime) {extra : List Event}
    (hfire : ts.ended = true → ∀ y ∈ P.graph.successors t, Event.input t y ∈ extra)
    (hextra : ∀ s y, Event.input s y ∈ extra →
      s = t ∧ ts.ended = true ∧ y ∈ P.graph.successors t) :
    StartInv P (ρ.setTask t ts) (extra ++ rest) := by
  have hbegin : ∀ y, ((ρ.setTask t ts).task y).beginTime = (ρ.task y).beginTime := by
    intro y
    rw [setTask_task]
    split
    · subst y
      exact hbeg
    · rfl
  have hended : ∀ s, (ρ.task s).ended = true → (ρ.setTask t ts).task s = ρ.task s := by
    intro s hs
    have hst : s ≠ t := fun he => by rw [he, hne] at hs; cases hs
    exact setTask_task_of_ne hst
  refine ⟨fun y => ?_, fun s hs y hy he hn => ?_, fun s y hm => ?_, fun u hu => ?_,
    fun pl hpl => ?_, h.placed_finish⟩
  · rw [hbegin]
    rcases h.begin_origin y with hb | ⟨s, hs, hys, he, hb⟩
    · exact .inl hb
    · exact .inr ⟨s, hs, hys, by rw [hended s he]; exact he, by rw [hended s he]; exact hb⟩
  · rw [hbegin]
    by_cases hst : s = t
    · subst hst
      rw [setTask_task_self] at he
      exact absurd (List.mem_append_left _ (hfire he y hy)) hn
    · rw [setTask_task_of_ne hst] at he ⊢
      refine h.begin_bound s hs y hy he fun hm => ?_
      rcases List.mem_cons.1 hm with he' | hm
      · exact hev s y he'.symm
      · exact hn (List.mem_append_right _ hm)
  · rcases List.mem_append.1 hm with hm | hm
    · obtain ⟨rfl, he, hy⟩ := hextra s y hm
      rw [setTask_task_self]
      exact ⟨he, hy⟩
    · obtain ⟨he, hy⟩ := h.input_ended s y (List.mem_cons_of_mem _ hm)
      rw [hended s he]
      exact ⟨he, hy⟩
  · rw [hbegin]
    exact h.unplaced_ready u hu
  · rw [hbegin]
    exact h.placed_ready pl hpl

/-- An input of an end, whether it fires or waits. -/
theorem StartInv.finishInput {ev : Event} (hI : Inv P ρ (ev :: rest)) (he : EndInput P ev t)
    (h : StartInv P ρ (ev :: rest)) (f : Double) :
    StartInv P (finishInput P ρ t f).1 ((finishInput P ρ t f).2 ++ rest) := by
  have hp := he.pending_pos hI
  have hne : (ρ.task t).ended = false := Bool.eq_false_iff.2 fun hE => by
    have := (hI.ended_iff t he.lt).1 hE
    omega
  have hev : ∀ s y, ev ≠ .input s y := fun s y hev => by
    have := he.not_input y
    rw [hev] at this
    simp at this
  unfold Direct.finishInput
  dsimp only
  rw [if_pos ⟨he.lt, by omega⟩]
  split
  · refine h.setEnd hev hne (by rfl) (fun _ y hy => List.mem_map_of_mem hy) fun s y hm => ?_
    obtain ⟨x, hx, hxe⟩ := List.mem_map.1 hm
    rw [Event.input.injEq] at hxe
    obtain ⟨rfl, rfl⟩ := hxe
    exact ⟨rfl, rfl, hx⟩
  · refine h.setEnd hev hne (by rfl) (fun hE => absurd hE ?_) nofun
    show (ρ.task t).ended ≠ true
    rw [hne]
    decide

theorem StartInv.step {ev : Event} (hI : Inv P ρ (ev :: rest)) (hT : TimeInv P ρ (ev :: rest))
    (h : StartInv P ρ (ev :: rest)) : StartInv P (step P ρ ev).1 ((step P ρ ev).2 ++ rest) := by
  have hwf := hI.events_wf ev List.mem_cons_self
  cases ev with
  | input pred t => exact h.input hI hT
  | release t k => exact h.release
  | skip t =>
    exact h.finishInput hI ⟨hwf.1, by simp, by simp, by simp, fun x hx => by simp [Ne.symm hx]⟩ _
  | done t k =>
    exact h.finishInput hI ⟨hwf.1, by simp, by simp, by simp, fun x hx => by simp [Ne.symm hx]⟩ _

theorem StartInv.drain (hg : P.graph.WellFormed) (hI : Inv P ρ es) (hT : TimeInv P ρ es)
    (h : StartInv P ρ es) : StartInv P (drain P ρ es) [] := by
  induction ρ, es using Direct.drain.induct P with
  | case1 ρ =>
    rw [Direct.drain]
    exact h
  | case2 ρ ev rest ih =>
    rw [Direct.drain]
    exact ih (hI.step hg) (hT.step hI) (h.step hI hT)

end Step

section Free

/-- The moment a pick returns is first in the total order of times among the moments it saw. -/
theorem foldl_better_totalKey_le (l : List Free) (b : Option Free) {f : Free}
    (h : l.foldl better b = some f) :
    (∀ c ∈ b, f.time.totalKey ≤ c.time.totalKey) ∧ ∀ g ∈ l, f.time.totalKey ≤ g.time.totalKey := by
  induction l generalizing b with
  | nil =>
    rw [List.foldl_nil] at h
    subst h
    exact ⟨fun c hc => by rw [Option.mem_some_iff.1 hc], nofun⟩
  | cons x l ih =>
    rw [List.foldl_cons] at h
    obtain ⟨hb, hl⟩ := ih (better b x) h
    -- the best so far is `x` or the old best, and the other is no earlier
    have hx : f.time.totalKey ≤ x.time.totalKey ∧ ∀ c ∈ b, f.time.totalKey ≤ c.time.totalKey := by
      cases b with
      | none => exact ⟨hb x rfl, nofun⟩
      | some c =>
        by_cases hlt : x.time.totalKey < c.time.totalKey
        · have hfx := hb x (by simp [better, hlt])
          exact ⟨hfx, fun c' hc' => by rw [← Option.mem_some_iff.1 hc']; omega⟩
        · have hfc := hb c (by simp [better, hlt])
          exact ⟨by omega, fun c' hc' => by rw [← Option.mem_some_iff.1 hc']; exact hfc⟩
    refine ⟨hx.2, fun g hg => ?_⟩
    rcases List.mem_cons.1 hg with rfl | hg
    · exact hx.1
    · exact hl g hg

theorem pick_totalKey_le {l : List Free} {f : Free} (h : pick l = some f) {g : Free}
    (hg : g ∈ l) : f.time.totalKey ≤ g.time.totalKey :=
  (foldl_better_totalKey_le l none h).2 g hg

theorem TimeInv.release_le_free (hI : Inv P ρ es) (hT : TimeInv P ρ es) {g : Free}
    (hg : g ∈ ρ.free) : P.release.le g.time := by
  have hr := isNaN_eq_false_of_le_left (hT.begin_ge 0)
  obtain ⟨-, -, hm⟩ := P.mem_freeMoments.1 (hI.free_eq ▸ hg)
  rw [← hm]
  unfold Problem.moment
  split
  · exact le_refl_of_not_isNaN hr
  · split
    · rename_i pl hpl
      have hpl' := hT.placed pl (List.mem_of_getElem? hpl)
      exact le_trans (hT.begin_ge _) (le_trans hpl'.1 hpl'.2)
    · exact le_refl_of_not_isNaN hr

theorem Inv.exists_release_free (hI : Inv P ρ es) (hlen : ρ.log.length < P.processors) :
    ∃ g ∈ ρ.free, g.time = P.release := by
  obtain ⟨σ, hσ, hσn⟩ : ∃ σ < P.processors, σ ∉ ρ.log.map Placement.taken := by
    by_contra hn
    have hsub : List.range P.processors ⊆ ρ.log.map Placement.taken := fun σ hσ => by
      by_contra hσn
      exact hn ⟨σ, List.mem_range.1 hσ, hσn⟩
    have := (List.subperm_of_subset List.nodup_range hsub).length_le
    simp at this
    omega
  refine ⟨⟨σ, P.release, σ⟩, hI.free_eq ▸ P.mem_freeMoments.2 ⟨by simp; omega, hσn, ?_⟩, rfl⟩
  simp [Problem.moment, hσ]

end Free

section Assign

variable (hU : P.totalUnits ≤ P.processors)
include hU

/-- With a processor for every unit the head of the queue is placed when its task began: the moment
chosen is no later than the release time, since a processor still at its first moment is free. -/
theorem StartInv.assign (hI : Inv P ρ []) (hT : TimeInv P ρ []) (h : StartInv P ρ [])
    {u : UnitId} {rest : List UnitId} (hq : ρ.queue = u :: rest) {f : Free}
    (hf : pick ρ.free = some f) :
    StartInv P (assign P { ρ with queue := rest } u f) [.done u.task u.subtask] := by
  obtain ⟨⟨hvalid, -⟩, -, hnp, hnl⟩ := hI.queue_head hq
  obtain ⟨g, hg, hgr⟩ := hI.exists_release_free
    (Nat.lt_of_lt_of_le (hI.length_log_lt hvalid hnl) hU)
  have hrf : P.release.le f.time := hT.release_le_free hI (pick_mem hf)
  have hfr : f.time.le P.release := (le_iff _ _).2 ⟨isNaN_eq_false_of_le_right hrf,
    isNaN_eq_false_of_le_left hrf, .inr (hgr ▸ pick_totalKey_le hf hg)⟩
  have hqd := hT.queued u (by rw [hq]; exact List.mem_cons_self)
  have hready : (ρ.unit u).timing.ready.numEq (ρ.task u.task).beginTime :=
    numEq_of_le_of_le (h.unplaced_ready u hnp) hqd
  obtain ⟨R, hR⟩ : ∃ R, R = Double.maxNum (ρ.unit u).timing.ready f.time := ⟨_, rfl⟩
  have hRb : R.numEq (ρ.task u.task).beginTime := by
    rw [hR]
    exact numEq_trans (maxNum_numEq_left (le_trans hfr (le_trans (hT.begin_ge _) hqd))) hready
  have hlog : (Direct.assign P { ρ with queue := rest } u f).log =
      ρ.log ++ [⟨u, f.processor, R, R + P.execTime u, f.stamp⟩] := by
    rw [hR]
    rfl
  refine ⟨h.begin_origin, fun s hs y hy he _ => h.begin_bound s hs y hy he List.not_mem_nil,
    fun s y hm => by simp at hm, fun v hv => ?_, fun pl hpl => ?_, fun pl hpl => ?_⟩
  · have hvu : v ≠ u := fun he => by
      subst he
      have : (Function.update ρ.unit v _ v).processor = none := hv
      rw [Function.update_self] at this
      cases this
    have hv' : (Function.update ρ.unit u _ v).processor = none := hv
    rw [Function.update_of_ne hvu] at hv'
    show (Function.update ρ.unit u _ v).timing.ready.le (ρ.task v.task).beginTime
    rw [Function.update_of_ne hvu]
    exact h.unplaced_ready v hv'
  · rw [hlog] at hpl
    rcases List.mem_append.1 hpl with hpl | hpl
    · exact h.placed_ready pl hpl
    · rw [List.mem_singleton.1 hpl]
      exact hRb
  · rw [hlog] at hpl
    rcases List.mem_append.1 hpl with hpl | hpl
    · exact h.placed_finish pl hpl
    · rw [List.mem_singleton.1 hpl]

variable (hx : ∀ u, P.Valid u → (P.execTime u).isValidTime = true)
include hx

theorem StartInv.dispatch (hg : P.graph.WellFormed) (hI : Inv P ρ []) (hT : TimeInv P ρ [])
    (h : StartInv P ρ []) : StartInv P (dispatch P ρ) [] := by
  induction ρ using Direct.dispatch.induct P with
  | case1 ρ hq =>
    rw [dispatch_of_queue_nil hq]
    exact h
  | case2 ρ u rest hq hf =>
    rw [dispatch_of_pick_none hf]
    exact h
  | case3 ρ u rest hq f hf ih =>
    rw [dispatch_of_pick_some hq hf]
    have hI' := hI.assign hq hf
    have hT' := hT.assign hx hI hq f
    exact ih (hI'.drain hg) (hT'.drain hg hI') ((h.assign hU hI hT hq hf).drain hg hI' hT')

end Assign

section Run

theorem StartInv.start (hg : P.graph.WellFormed) (hI : Inv P ρ []) (hT : TimeInv P ρ [])
    (h : StartInv P ρ []) (t : Nat) : StartInv P (start P ρ t) [] := by
  unfold Direct.start
  dsimp only
  split
  · rename_i hs
    obtain ⟨ht, hnb, hr⟩ := hs
    exact StartInv.drain hg (hI.startFires ht hnb hr) (hT.startFires hI ht hnb)
      (h.raise hI hT hnb (by rfl) (by rfl) (by rfl) (.inl rfl)
        (fun s y hm => absurd hm (input_not_mem_beginEvents s y t)) nofun)
  · exact h

theorem StartInv.initial (hr : P.release.isNaN = false) : StartInv P (initial P) [] where
  begin_origin _ := .inl rfl
  begin_bound _ _ _ _ he := by simp [Direct.initial] at he
  input_ended _ _ := nofun
  unplaced_ready _ _ := le_refl_of_not_isNaN hr
  placed_ready _ := nofun
  placed_finish _ := nofun

theorem StartInv.foldl_start (hg : P.graph.WellFormed) (hI : Inv P ρ []) (hT : TimeInv P ρ [])
    (h : StartInv P ρ []) (linked : List Nat) :
    StartInv P (linked.foldl (Direct.start P) ρ) [] := by
  induction linked generalizing ρ with
  | nil => exact h
  | cons t rest ih => exact ih (hI.start hg t) (hT.start hg hI t) (h.start hg hI hT t)

theorem StartInv.schedule (hU : P.totalUnits ≤ P.processors) (hg : P.graph.WellFormed)
    (hr : P.release.isNaN = false) (hx : ∀ u, P.Valid u → (P.execTime u).isValidTime = true)
    (linked : List Nat) : StartInv P (schedule P linked) [] :=
  ((StartInv.initial hr).foldl_start hg Inv.initial (TimeInv.initial hr) linked).dispatch hU hx hg
    (Inv.initial.foldl_start hg linked) ((TimeInv.initial hr).foldl_start hg Inv.initial linked)

end Run

section Ends

theorem StartInv.isLatest_begin (hT : TimeInv P ρ []) (h : StartInv P ρ []) {t : Nat}
    (hpred : ∀ s ∈ P.predecessors t, (ρ.task s).ended = true) :
    IsLatest (ρ.task t).beginTime
      (P.release :: (P.predecessors t).map fun s => (ρ.task s).endTime) := by
  have hbn := isNaN_eq_false_of_le_right (hT.begin_ge t)
  refine ⟨fun y hy => ?_, ?_⟩
  · rcases List.mem_cons.1 hy with rfl | hy
    · exact hT.begin_ge t
    · obtain ⟨s, hs, rfl⟩ := List.mem_map.1 hy
      obtain ⟨hs', hts⟩ := P.mem_predecessors.1 hs
      exact h.begin_bound s hs' t hts (hpred s hs) List.not_mem_nil
  · rcases h.begin_origin t with hb | ⟨s, hs, hts, -, hb⟩
    · refine ⟨P.release, List.mem_cons_self, ?_⟩
      rw [← hb]
      exact numEq_refl hbn
    · refine ⟨_, List.mem_cons_of_mem _ (List.mem_map_of_mem (P.mem_predecessors.2 ⟨hs, hts⟩)), ?_⟩
      rw [← hb]
      exact numEq_refl hbn

theorem StartInv.finish_numEq (hI : Inv P ρ []) (h : StartInv P ρ []) {u : UnitId}
    (hu : (ρ.unit u).processor.isSome = true) (hx : (P.execTime u).isFinite = true) :
    (ρ.unit u).timing.ready.numEq (ρ.task u.task).beginTime ∧
      (ρ.unit u).timing.finish.numEq ((ρ.task u.task).beginTime + P.execTime u) := by
  obtain ⟨pl, hpl, rfl⟩ := List.mem_map.1 (hI.placed_mem u hu)
  rw [hI.log_unit pl hpl]
  refine ⟨h.placed_ready pl hpl, ?_⟩
  rw [h.placed_finish pl hpl]
  exact numEq_add_of_numEq (h.placed_ready pl hpl) hx

/-- At the end of a run, the end of a task that fired once all its units were placed is the
finish its begin gives it. -/
theorem StartInv.end_numEq_earliestFinish (hI : Inv P ρ []) (hT : TimeInv P ρ [])
    (h : StartInv P ρ []) {t : Nat} (hx : ∀ x ∈ P.unitTimes t, x.isFinite = true)
    (hended : (ρ.task t).ended = true)
    (hplaced : ∀ k < P.unitCount t, (ρ.unit ⟨t, k⟩).processor.isSome = true) :
    (ρ.task t).endTime.numEq (P.earliestFinish (fun y => (ρ.task y).beginTime) t) := by
  have hbn := isNaN_eq_false_of_le_right (hT.begin_ge t)
  have hunit : ∀ k (hk : k < P.unitCount t),
      (ρ.unit ⟨t, k⟩).timing.finish.numEq ((ρ.task t).beginTime + (P.unitTimes t)[k]) := by
    intro k hk
    have hexec : P.execTime ⟨t, k⟩ = (P.unitTimes t)[k] := by
      simp [Problem.execTime, List.getElem?_eq_getElem hk]
    have := (h.finish_numEq hI (hplaced k hk) (hexec ▸ hx _ (List.getElem_mem hk))).2
    rwa [hexec] at this
  have hmem : ∀ y ∈ (P.unitTimes t).map ((ρ.task t).beginTime + ·), ∃ k, ∃ hk : k < P.unitCount t,
      (ρ.unit ⟨t, k⟩).timing.finish.numEq y := by
    intro y hy
    obtain ⟨x, hx', rfl⟩ := List.mem_map.1 hy
    obtain ⟨k, hk, rfl⟩ := List.mem_iff_getElem.1 hx'
    exact ⟨k, hk, hunit k hk⟩
  unfold Problem.earliestFinish
  by_cases hc : P.unitCount t = 0
  · have hnil : P.unitTimes t = [] := List.eq_nil_of_length_eq_zero hc
    have he := hT.end_unitless t hc
    rw [hended, if_pos rfl] at he
    rw [hnil, List.map_nil, List.foldl_nil, he]
    exact numEq_refl hbn
  · have hfin : ∀ k < P.unitCount t, (ρ.unit ⟨t, k⟩).timing.finish.le (ρ.task t).endTime :=
      fun k hk => (hT.placed_unit hI (hplaced k hk)).2.2
    have hnan : ∀ y ∈ (P.unitTimes t).map ((ρ.task t).beginTime + ·), y.isNaN = false := by
      intro y hy
      obtain ⟨k, hk, hky⟩ := hmem y hy
      exact (isNaN_eq_false_of_numEq hky).2
    refine numEq_of_le_of_le ?_ (foldl_maxNum_le ?_ fun y hy => ?_)
    · obtain ⟨k, hk, hek⟩ := hT.end_numEq_finish hI (Nat.pos_of_ne_zero hc) hplaced
      refine le_trans (le_of_numEq (numEq_trans hek (hunit k hk))) ((le_foldl_maxNum hbn hnan).2 _ ?_)
      exact List.mem_map_of_mem (List.getElem_mem hk)
    · obtain ⟨hb, hrf, -⟩ := hT.placed_unit hI (hplaced 0 (Nat.pos_of_ne_zero hc))
      exact le_trans hb (le_trans hrf (hfin 0 (Nat.pos_of_ne_zero hc)))
    · obtain ⟨k, hk, hky⟩ := hmem y hy
      exact le_trans (le_of_numEq (numEq_symm hky)) (hfin k hk)

end Ends

section Entries

variable {B : Nat → Double} (hg : P.graph.WellFormed) (hp : 0 < P.processors)
  (hU : P.totalUnits ≤ P.processors) (hr : P.release.isFinite = true)
  (hx : ∀ t < P.size, ∀ x ∈ P.unitTimes t, x.isValidTime = true) (ha : P.graph.Acyclic)
include hg hp hU hr hx ha

theorem schedule_entries_ends :
    Inv P (schedule P P.entries) [] ∧ TimeInv P (schedule P P.entries) [] ∧
      StartInv P (schedule P P.entries) [] ∧
      (∀ t < P.size, ((schedule P P.entries).task t).ended = true) ∧
      ∀ u, P.Valid u → ((schedule P P.entries).unit u).processor.isSome = true := by
  have hL : ∀ t ∈ P.entries, t < P.size ∧ P.inDegree t = 0 := fun t ht => by
    simpa [Problem.entries] using ht
  have hrn := not_isNaN_of_isFinite hr
  have hxu : ∀ u, P.Valid u → (P.execTime u).isValidTime = true :=
    fun _ hu => P.execTime_isValidTime hx hu
  exact ⟨Inv.schedule hg _, TimeInv.schedule hg hrn hxu _, StartInv.schedule hU hg hrn hxu _,
    fun t ht => (ended_schedule_iff hg hp hL ht).2 (P.fires_entries_of_acyclic ha ht),
    fun u hu => (placed_schedule_iff hg hp hL hu).2 (P.fires_entries_of_acyclic ha hu.1)⟩

theorem schedule_end_numEq_earliestFinish {t : Nat} (ht : t < P.size) :
    ((schedule P P.entries).task t).endTime.numEq
      (P.earliestFinish (fun y => ((schedule P P.entries).task y).beginTime) t) := by
  obtain ⟨hI, hT, hS, hended, hplaced⟩ := schedule_entries_ends hg hp hU hr hx ha
  exact hS.end_numEq_earliestFinish hI hT (fun x hx' => isFinite_of_isValidTime (hx t ht x hx'))
    (hended t ht) fun k hk => hplaced _ ⟨ht, hk⟩

theorem schedule_earliestStart :
    P.EarliestStart fun t => ((schedule P P.entries).task t).beginTime := by
  obtain ⟨-, hT, hS, hended, -⟩ := schedule_entries_ends hg hp hU hr hx ha
  intro t ht
  have hrn := not_isNaN_of_isFinite hr
  have hend : ∀ s ∈ P.predecessors t, ((schedule P P.entries).task s).endTime.numEq
      (P.earliestFinish (fun y => ((schedule P P.entries).task y).beginTime) s) :=
    fun s hs => schedule_end_numEq_earliestFinish hg hp hU hr hx ha (P.mem_predecessors.1 hs).1
  refine (hS.isLatest_begin hT fun s hs => hended s (P.mem_predecessors.1 hs).1).numEq_of_map
    (isLatest_foldl_maxNum hrn fun y hy => ?_) (numEq_refl hrn) hend
  obtain ⟨s, hs, rfl⟩ := List.mem_map.1 hy
  exact (isNaN_eq_false_of_numEq (hend s hs)).2

/-- Such a run readies every unit at its task's earliest start and spans every task from its
earliest start to its earliest finish. -/
theorem schedule_earliest (hB : P.EarliestStart B) :
    (∀ u, P.Valid u → ((schedule P P.entries).unit u).timing.ready.numEq (B u.task) ∧
      ((schedule P P.entries).unit u).timing.finish.numEq (B u.task + P.execTime u)) ∧
    ∀ t < P.size, (spanOf P (schedule P P.entries) t).1.numEq (B t) ∧
      (spanOf P (schedule P P.entries) t).2.numEq (P.earliestFinish B t) := by
  obtain ⟨hI, hT, hS, -, hplaced⟩ := schedule_entries_ends hg hp hU hr hx ha
  have hxf : ∀ s < P.size, ∀ x ∈ P.unitTimes s, x.isFinite = true :=
    fun s hs x hx' => isFinite_of_isValidTime (hx s hs x hx')
  -- the run's own begin times are the earliest starts, so they are `B` up to zeros
  have hsame : ∀ t < P.size, ((schedule P P.entries).task t).beginTime.numEq (B t) :=
    fun t ht => earliestStart_unique ha (not_isNaN_of_isFinite hr) hxf
      (schedule_earliestStart hg hp hU hr hx ha) hB ht
  have hunit : ∀ u, P.Valid u →
      ((schedule P P.entries).unit u).timing.ready.numEq (B u.task) ∧
        ((schedule P P.entries).unit u).timing.finish.numEq (B u.task + P.execTime u) := by
    intro u hu
    have hxu := isFinite_of_isValidTime (P.execTime_isValidTime hx hu)
    obtain ⟨hready, hfinish⟩ := hS.finish_numEq hI (hplaced u hu) hxu
    exact ⟨numEq_trans hready (hsame _ hu.1),
      numEq_trans hfinish (numEq_add_of_numEq (hsame _ hu.1) hxu)⟩
  refine ⟨hunit, fun t ht => ⟨?_, ?_⟩⟩
  · have hplaced' : ∀ k < P.unitCount t, ((schedule P P.entries).unit ⟨t, k⟩).processor.isSome =
        true := fun k hk => hplaced _ ⟨ht, hk⟩
    by_cases hc : P.unitCount t = 0
    · rw [spanOf_of_unitCount_eq_zero hc]
      exact hsame t ht
    · obtain ⟨hle, hk | ⟨-, hb⟩⟩ := hT.spanOf_start hI hplaced'
      · obtain ⟨k, hk, he⟩ := hk
        rw [he]
        exact (hunit _ ⟨ht, hk⟩).1
      · rw [hb]
        exact hsame t ht
  · exact numEq_trans (schedule_end_numEq_earliestFinish hg hp hU hr hx ha ht)
      (earliestFinish_numEq (hxf t ht) (hsame t ht))

end Entries

section Whole

variable {split : Split} {limit : Nat}

theorem pipeline_entries_plan (hsplit : P.graph.unitTimes split = P.unitTimes)
    (hr : P.release.isFinite = true) (hp : 0 < P.processors) (hg : P.graph.WellFormed)
    (hx : ∀ t < P.size, ∀ x ∈ P.unitTimes t, x.isValidTime = true)
    (hroom : P.nodeBase + P.totalUnits ≤ (Store.withLimit limit).limit)
    (hdeg : ∀ t < P.size, P.inDegree t < BarrierNode.inputLimit) (ha : P.graph.Acyclic) :
    let out := (Run.pipeline P.release P.processors P.graph split none).run.run
      (Scheduler.new P.priority (Store.withLimit limit))
    out.1 = .ok () ∧ ∃ p, out.2.plan = .ok p ∧
      p.entries.toList = (P.units.zipIdx P.unitBase).map (entryOf P (schedule P P.entries)) ∧
      p.spans.toList = (List.range P.size).map (spanOf P (schedule P P.entries)) ∧
      PlanTimes P P.entries out.2 p := by
  intro out
  have hsrc : ∀ t ∈ (none : Option Nat), t < P.size ∧ P.inDegree t = 0 := nofun
  have hL := linked_awaits_nothing hsrc
  have hall : ∀ t < P.size, 0 < P.unitCount t → P.Fires (P.linked none) t :=
    fun t ht _ => P.fires_entries_of_acyclic ha ht
  have hok : out.1 = .ok () := by
    rw [(pipeline_endsAsFiring hsplit hr hp hg hx hroom hdeg none hsrc).outcome, if_pos hall]
  have h := Renders.pipeline hsplit hr hp hg hx hroom hdeg none
  obtain ⟨p, hplan, hstart, hentries, hspans⟩ :=
    h.plan (pipeline_done_of_ok hsplit hr hp hg hx hroom hdeg hsrc hok) fun _ =>
      placed_schedule_of_fires hg hp hL hall
  exact ⟨hok, p, hplan, hentries, hspans, h.planTimes hg hp hL hr hx hall hstart hentries hspans⟩

/-- The earliest starts decide every time of a run with a processor for every unit. -/
theorem pipeline_earliest_starts (hsplit : P.graph.unitTimes split = P.unitTimes)
    (hr : P.release.isFinite = true) (hp : 0 < P.processors) (hg : P.graph.WellFormed)
    (hx : ∀ t < P.size, ∀ x ∈ P.unitTimes t, x.isValidTime = true)
    (hroom : P.nodeBase + P.totalUnits ≤ (Store.withLimit limit).limit)
    (hdeg : ∀ t < P.size, P.inDegree t < BarrierNode.inputLimit) (ha : P.graph.Acyclic)
    (hU : P.totalUnits ≤ P.processors) :
    (∃ B, P.EarliestStart B) ∧ ∀ B, P.EarliestStart B → ∀ priority : UnitId → Double,
      let out := (Run.pipeline P.release P.processors P.graph split none).run.run
        (Scheduler.new priority (Store.withLimit limit))
      out.1 = .ok () ∧ ∃ p, out.2.plan = .ok p ∧
        (∀ u, P.Valid u → ∃ e ∈ p.entries.toList, e.id = u) ∧
        (∀ e ∈ p.entries.toList,
          e.ready.numEq (B e.id.task) ∧ e.finish.numEq (B e.id.task + P.execTime e.id)) ∧
        (∀ t < P.size, ∃ a b, p.spans[t]? = some (a, b) ∧
          a.numEq (B t) ∧ b.numEq (P.earliestFinish B t)) ∧
        p.makespan.numEq
          ((P.units.map fun u => B u.task + P.execTime u).foldl Double.maxNum P.release - P.release) := by
  refine ⟨⟨_, schedule_earliestStart hg hp hU hr hx ha⟩, fun B hB priority => ?_⟩
  -- the priorities only order the queue: the run is the one of the same problem with them
  obtain ⟨hok, p, hplan, hentries, hspans, htimes⟩ :=
    pipeline_entries_plan (P := { P with priority := priority }) hsplit hr hp hg hx hroom hdeg ha
  obtain ⟨hunit, hspan⟩ := schedule_earliest (P := { P with priority := priority }) hg hp hU hr hx ha hB
  have hentry : ∀ x ∈ P.units.zipIdx P.unitBase,
      (entryOf P (schedule { P with priority := priority } P.entries) x).ready.numEq (B x.1.task) ∧
      (entryOf P (schedule { P with priority := priority } P.entries) x).finish.numEq
        (B x.1.task + P.execTime x.1) :=
    fun x hx' => hunit x.1 (P.mem_units.1 (List.fst_mem_of_mem_zipIdx hx'))
  refine ⟨hok, p, hplan, htimes.units, fun e he => ?_, fun t ht => ?_, ?_⟩
  · rw [hentries] at he
    obtain ⟨x, hx', rfl⟩ := List.mem_map.1 he
    exact hentry x hx'
  · refine ⟨_, _, ?_, hspan t ht⟩
    rw [← Array.getElem?_toList, hspans, List.getElem?_map,
      List.getElem?_range (n := ({ P with priority := priority } : Problem).size) ht]
    rfl
  · have hunits : P.units.map (fun u => B u.task + P.execTime u) =
        (P.units.zipIdx P.unitBase).map fun x => B x.1.task + P.execTime x.1 := by
      conv_lhs => rw [← List.zipIdx_map_fst P.unitBase P.units]
      rw [List.map_map]
      rfl
    refine numEq_trans htimes.makespan (numEq_sub_of_numEq ?_ hr)
    rw [hentries, List.map_map, hunits]
    exact foldl_maxNum_map_numEq (numEq_refl (not_isNaN_of_isFinite hr)) fun x hx' =>
      (hentry x hx').2

/-- The diamond on four processors, one for each of its units. -/
def Problem.wideDiamond : Problem := { Problem.diamond with processors := 4 }

theorem pipeline_earliest_starts_wideDiamond :
    Problem.wideDiamond.nodeBase + Problem.wideDiamond.totalUnits ≤ (Store.withLimit 100).limit ∧
    diamondGraph.Acyclic ∧ Problem.wideDiamond.totalUnits ≤ Problem.wideDiamond.processors ∧
    (∃ B, Problem.wideDiamond.EarliestStart B) ∧ ∀ B, Problem.wideDiamond.EarliestStart B →
      ∀ priority : UnitId → Double,
      let out := (Run.pipeline Problem.wideDiamond.release 4 diamondGraph .subtasks none).run.run
        (Scheduler.new priority (Store.withLimit 100))
      out.1 = .ok () ∧ ∃ p, out.2.plan = .ok p ∧
        (∀ u, Problem.wideDiamond.Valid u → ∃ e ∈ p.entries.toList, e.id = u) ∧
        (∀ e ∈ p.entries.toList, e.ready.numEq (B e.id.task) ∧
          e.finish.numEq (B e.id.task + Problem.wideDiamond.execTime e.id)) ∧
        (∀ t < Problem.wideDiamond.size, ∃ a b, p.spans[t]? = some (a, b) ∧
          a.numEq (B t) ∧ b.numEq (Problem.wideDiamond.earliestFinish B t)) ∧
        p.makespan.numEq ((Problem.wideDiamond.units.map fun u =>
          B u.task + Problem.wideDiamond.execTime u).foldl Double.maxNum
            Problem.wideDiamond.release - Problem.wideDiamond.release) :=
  ⟨by decide, ⟨id, by decide⟩, by decide, pipeline_earliest_starts rfl (by decide) (by decide)
    (by unfold TaskGraph.WellFormed; decide) (by decide) (by decide) (by decide +kernel)
    ⟨id, by decide⟩ (by decide)⟩

/-- Without room a run does not reach its plan: on a store of five vertices the run of one unit
overflows. -/
theorem pipeline_plan_fails_without_room :
    Problem.single.graph.Acyclic ∧ Problem.single.totalUnits ≤ Problem.single.processors ∧
    let out := (Run.pipeline Problem.single.release 1 Problem.single.graph .subtasks none).run.run
      (Scheduler.new Problem.single.priority (Store.withLimit 5))
    out.1 = .error (.store (.overflow 5)) ∧ out.2.plan = .error .poisoned := by
  refine ⟨⟨id, by decide⟩, by decide, ?_⟩
  intro out
  have hph : out.2.phase = .poisoned := by decide +kernel
  exact ⟨by decide +kernel, Scheduler.plan_poisoned hph⟩

end Whole

end Direct

end ListScheduling
