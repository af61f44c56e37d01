import ListScheduling.Proofs.Direct.Firing
import ListScheduling.Proofs.Double.Monotone
import ListScheduling.Proofs.Scheduler.Timing

/-!
The times of the direct scheduler.
-/
namespace ListScheduling.Direct

open Double

variable (P : Problem)

/-- A time a run produced: the release time, or the finish of a placement. -/
def Attained (ρ : State) (x : Double) : Prop := x = P.release ∨ ∃ pl ∈ ρ.log, x = pl.finish

/-- The time invariant of the direct scheduler with the deliveries `es` pending. -/
structure TimeInv (ρ : State) (es : List Event) : Prop where
  begin_ge : ∀ t, P.release.le (ρ.task t).beginTime
  end_ge : ∀ t, P.release.le (ρ.task t).endTime
  begin_attained : ∀ t, Attained P ρ (ρ.task t).beginTime
  end_attained : ∀ t, Attained P ρ (ρ.task t).endTime
  end_own : ∀ t, P.unitCount t ≠ 0 → (ρ.task t).endTime = P.release ∨
    ∃ pl ∈ ρ.log, pl.id.task = t ∧ (ρ.task t).endTime = pl.finish
  end_unitless : ∀ t, P.unitCount t = 0 →
    (ρ.task t).endTime = if (ρ.task t).ended then (ρ.task t).beginTime else P.release
  pending_le : ∀ t, (ρ.task t).pending ≤ max (P.unitCount t) 1
  queued : ∀ u ∈ ρ.queue, ((ρ.task u.task).beginTime).le (ρ.unit u).timing.ready
  placed : ∀ pl ∈ ρ.log, ((ρ.task pl.id.task).beginTime).le pl.ready ∧ pl.ready.le pl.finish
  delivered : ∀ pl ∈ ρ.log, Event.done pl.id.task pl.id.subtask ∉ es →
    pl.finish.le (ρ.task pl.id.task).endTime

variable {P} {ρ : State} {es : List Event}

theorem Attained.maxNum {x y : Double} (hx : Attained P ρ x) (hy : Attained P ρ y) :
    Attained P ρ (Double.maxNum x y) := by
  rcases maxNum_eq_or x y with h | h <;> rw [h]
  · exact hx
  · exact hy

theorem Attained.of_log {ρ' : State} {x : Double} (h : Attained P ρ x) (hl : ρ.log ⊆ ρ'.log) :
    Attained P ρ' x := by
  rcases h with h | ⟨pl, hpl, h⟩
  · exact .inl h
  · exact .inr ⟨pl, hl hpl, h⟩

theorem Attained.release : Attained P ρ P.release := .inl rfl

theorem maxNum_eq_right_of_le {x y : Double} (h : x.le y) : Double.maxNum x y = y := by
  have hx := isNaN_eq_false_of_le_left h
  have hy := isNaN_eq_false_of_le_right h
  obtain ⟨-, -, h⟩ := (le_iff x y).1 h
  have hlt : y.lt x = false := by
    rw [← Bool.not_eq_true, lt_iff]
    rintro ⟨-, -, hz, hk⟩
    rcases h with h | h
    · exact hz ⟨h.2, h.1⟩
    · omega
  simp [Double.maxNum, hx, hy, hlt]

section Bookkeeping

theorem Inv.begun_of_queued (h : Inv P ρ es) {u : UnitId} (hu : u ∈ ρ.queue) :
    (ρ.task u.task).begun = true := by
  have hw := h.whereabouts_eq u
  have hc := List.count_pos_iff.2 hu
  unfold whereabouts at hw
  by_contra hb
  have hn : ¬(P.Valid u ∧ (ρ.task u.task).begun = true) := fun hv => hb hv.2
  rw [if_neg hn] at hw
  omega

theorem Inv.begun_of_logged (h : Inv P ρ es) {pl : Placement} (hpl : pl ∈ ρ.log) :
    (ρ.task pl.id.task).begun = true :=
  h.begun_of_placed (by simp [h.log_unit pl hpl])

theorem Inv.valid_of_logged (h : Inv P ρ es) {pl : Placement} (hpl : pl ∈ ρ.log) :
    P.Valid pl.id := by
  have hw := h.whereabouts_eq pl.id
  have hs : (ρ.unit pl.id).processor.isSome = true := by simp [h.log_unit pl hpl]
  unfold whereabouts at hw
  rw [if_pos hs] at hw
  by_contra hv
  rw [if_neg fun hb => hv hb.1] at hw
  omega

theorem Inv.finish_of_logged (h : Inv P ρ es) {pl : Placement} (hpl : pl ∈ ρ.log) :
    (ρ.unit pl.id).timing.finish = pl.finish := by
  rw [h.log_unit pl hpl]

end Bookkeeping

section Step

theorem TimeInv.setTask (h : TimeInv P ρ es) {t : Nat} {ts : TaskState} {es' : List Event}
    (hb : P.release.le ts.beginTime) (hba : Attained P ρ ts.beginTime)
    (hbq : ∀ u ∈ ρ.queue, u.task = t → ts.beginTime.le (ρ.unit u).timing.ready)
    (hbl : ∀ pl ∈ ρ.log, pl.id.task = t → ts.beginTime.le pl.ready)
    (he : P.release.le ts.endTime) (hea : Attained P ρ ts.endTime)
    (heo : P.unitCount t ≠ 0 → ts.endTime = P.release ∨
      ∃ pl ∈ ρ.log, pl.id.task = t ∧ ts.endTime = pl.finish)
    (heu : P.unitCount t = 0 → ts.endTime = if ts.ended then ts.beginTime else P.release)
    (hp : ts.pending ≤ max (P.unitCount t) 1)
    (hd : ∀ pl ∈ ρ.log, pl.id.task = t → Event.done pl.id.task pl.id.subtask ∉ es' →
      pl.finish.le ts.endTime)
    (hes : ∀ pl ∈ ρ.log, pl.id.task ≠ t → Event.done pl.id.task pl.id.subtask ∉ es' →
      Event.done pl.id.task pl.id.subtask ∉ es) :
    TimeInv P (ρ.setTask t ts) es' := by
  refine ⟨fun x => ?_, fun x => ?_, fun x => ?_, fun x => ?_, fun x hx => ?_, fun x hx => ?_,
    fun x => ?_, fun u hu => ?_, fun pl hpl => ?_, fun pl hpl hn => ?_⟩
  · by_cases hxt : x = t
    · rw [hxt, setTask_task_self]
      exact hb
    · rw [setTask_task_of_ne hxt]
      exact h.begin_ge x
  · by_cases hxt : x = t
    · rw [hxt, setTask_task_self]
      exact he
    · rw [setTask_task_of_ne hxt]
      exact h.end_ge x
  · by_cases hxt : x = t
    · rw [hxt, setTask_task_self]
      exact hba
    · rw [setTask_task_of_ne hxt]
      exact h.begin_attained x
  · by_cases hxt : x = t
    · rw [hxt, setTask_task_self]
      exact hea
    · rw [setTask_task_of_ne hxt]
      exact h.end_attained x
  · by_cases hxt : x = t
    · subst hxt
      rw [setTask_task_self]
      exact heo hx
    · rw [setTask_task_of_ne hxt]
      exact h.end_own x hx
  · by_cases hxt : x = t
    · subst hxt
      rw [setTask_task_self]
      exact heu hx
    · rw [setTask_task_of_ne hxt]
      exact h.end_unitless x hx
  · by_cases hxt : x = t
    · rw [hxt, setTask_task_self]
      exact hp
    · rw [setTask_task_of_ne hxt]
      exact h.pending_le x
  · rw [setTask_unit]
    by_cases hut : u.task = t
    · rw [hut, setTask_task_self]
      exact hbq u hu hut
    · rw [setTask_task_of_ne hut]
      exact h.queued u hu
  · by_cases hpt : pl.id.task = t
    · rw [hpt, setTask_task_self]
      exact ⟨hbl pl hpl hpt, (h.placed pl hpl).2⟩
    · rw [setTask_task_of_ne hpt]
      exact h.placed pl hpl
  · by_cases hpt : pl.id.task = t
    · rw [hpt, setTask_task_self]
      exact hd pl hpl hpt hn
    · rw [setTask_task_of_ne hpt]
      exact h.delivered pl hpl (hes pl hpl hpt hn)

theorem TimeInv.drop {ev : Event} {rest : List Event} (h : TimeInv P ρ (ev :: rest))
    (hev : ∀ t k, ev ≠ .done t k) : TimeInv P ρ rest :=
  { h with
    delivered := fun pl hpl hn => h.delivered pl hpl fun hm =>
      (List.mem_cons.1 hm).elim (fun he => hev _ _ he.symm) hn }

theorem not_mem_cons_of_not_mem_append {ev e : Event} {extra rest : List Event}
    (hev : ev ≠ e) (h : e ∉ extra ++ rest) : e ∉ ev :: rest := by
  rw [List.mem_cons, not_or]
  exact ⟨Ne.symm hev, fun hm => h (List.mem_append_right _ hm)⟩

/-- A begin that has not fired takes a new time: no unit of its task is queued or placed yet,
so only the release bound and the origin of the new time are to be shown. -/
theorem TimeInv.setBegin (hI : Inv P ρ es) (h : TimeInv P ρ es) {t : Nat} (ht : t < P.size)
    (hnb : (ρ.task t).begun = false) {ts : TaskState} {es' : List Event}
    (hb : P.release.le ts.beginTime) (hba : Attained P ρ ts.beginTime)
    (hend : ts.endTime = (ρ.task t).endTime) (hended : ts.ended = (ρ.task t).ended)
    (hpend : ts.pending = (ρ.task t).pending)
    (hes : ∀ pl ∈ ρ.log, Event.done pl.id.task pl.id.subtask ∉ es' →
      Event.done pl.id.task pl.id.subtask ∉ es) :
    TimeInv P (ρ.setTask t ts) es' := by
  have hq : ∀ u ∈ ρ.queue, u.task ≠ t := fun u hu he => by
    have := hI.begun_of_queued hu
    rw [he, hnb] at this
    cases this
  have hl : ∀ pl ∈ ρ.log, pl.id.task ≠ t := fun pl hpl he => by
    have := hI.begun_of_logged hpl
    rw [he, hnb] at this
    cases this
  have hne : (ρ.task t).ended = false := Bool.eq_false_iff.2 fun he => by
    rw [hI.begun_of_ended ht he] at hnb
    cases hnb
  refine h.setTask hb hba (fun u hu he => absurd he (hq u hu)) (fun pl hpl he => absurd he (hl pl hpl))
    (hend ▸ h.end_ge t) (hend ▸ h.end_attained t) (hend ▸ h.end_own t) (fun hc => ?_)
    (hpend ▸ h.pending_le t) (fun pl hpl he => absurd he (hl pl hpl)) (fun pl hpl _ => hes pl hpl)
  rw [hended, hne, hend]
  simpa [hne] using h.end_unitless t hc

variable {pred t k : Nat} {rest : List Event}

theorem TimeInv.input (hI : Inv P ρ (.input pred t :: rest))
    (h : TimeInv P ρ (.input pred t :: rest)) :
    TimeInv P (step P ρ (.input pred t)).1 ((step P ρ (.input pred t)).2 ++ rest) := by
  simp only [step]
  split
  · rename_i hg
    have hnb : (ρ.task t).begun = false := Bool.eq_false_iff.2 fun hb => by
      have := hI.remaining_of_begun t hb
      omega
    have hb := Double.le_trans (h.begin_ge t)
      (le_maxNum_left (ρ.task pred).endTime (isNaN_eq_false_of_le_right (h.begin_ge t)))
    have hba := (h.begin_attained t).maxNum (h.end_attained pred)
    have hes : ∀ extra : List Event, ∀ pl ∈ ρ.log,
        Event.done pl.id.task pl.id.subtask ∉ extra ++ rest →
        Event.done pl.id.task pl.id.subtask ∉ Event.input pred t :: rest :=
      fun _ _ _ hn => not_mem_cons_of_not_mem_append (fun h => by cases h) hn
    split
    · exact h.setBegin hI hg.1 hnb hb hba rfl rfl rfl (hes _)
    · exact h.setBegin hI hg.1 hnb hb hba rfl rfl rfl (hes _)
  · exact h.drop fun _ _ h => by cases h

theorem TimeInv.release (h : TimeInv P ρ (.release t k :: rest)) :
    TimeInv P (step P ρ (.release t k)).1 ((step P ρ (.release t k)).2 ++ rest) := by
  have h' := h.drop nofun
  refine { h' with queued := fun v hv => ?_ }
  have hv' : v = ⟨t, k⟩ ∨ v ∈ ρ.queue := by
    simpa using (enqueue_perm P.priority ⟨t, k⟩ ρ.queue).subset hv
  show (ρ.task v.task).beginTime.le (Function.update ρ.unit ⟨t, k⟩ _ v).timing.ready
  by_cases hvu : v = ⟨t, k⟩
  · subst hvu
    rw [Function.update_self]
    exact le_maxNum_right _ (isNaN_eq_false_of_le_right (h.begin_ge t))
  · rw [Function.update_of_ne hvu]
    exact h.queued v (hv'.resolve_left hvu)

/-- An input of an end carrying time `f`. -/
theorem TimeInv.finishInput {ev : Event} {f : Double} (hI : Inv P ρ (ev :: rest))
    (he : EndInput P ev t) (h : TimeInv P ρ (ev :: rest)) (hf : P.release.le f)
    (hfa : Attained P ρ f)
    (hown : P.unitCount t ≠ 0 → ∃ pl ∈ ρ.log, pl.id.task = t ∧ f = pl.finish)
    (hless : P.unitCount t = 0 → f = (ρ.task t).beginTime)
    (hdone : ∀ pl ∈ ρ.log, ev = .done pl.id.task pl.id.subtask → pl.finish.le f) :
    TimeInv P (finishInput P ρ t f).1 ((finishInput P ρ t f).2 ++ rest) := by
  have hp := he.pending_pos hI
  have hE : (ρ.task t).endTime.le (Double.maxNum (ρ.task t).endTime f) :=
    le_maxNum_left f (isNaN_eq_false_of_le_right (h.end_ge t))
  have hF : f.le (Double.maxNum (ρ.task t).endTime f) :=
    le_maxNum_right _ (isNaN_eq_false_of_le_right hf)
  have hne : (ρ.task t).ended = false := Bool.eq_false_iff.2 fun hE' => by
    have := (hI.ended_iff t he.lt).1 hE'
    omega
  have hbq : ∀ u ∈ ρ.queue, u.task = t → (ρ.task t).beginTime.le (ρ.unit u).timing.ready :=
    fun u hu hut => hut ▸ h.queued u hu
  have hbl : ∀ pl ∈ ρ.log, pl.id.task = t → (ρ.task t).beginTime.le pl.ready :=
    fun pl hpl hpt => hpt ▸ (h.placed pl hpl).1
  have heo : P.unitCount t ≠ 0 → Double.maxNum (ρ.task t).endTime f = P.release ∨
      ∃ pl ∈ ρ.log, pl.id.task = t ∧ Double.maxNum (ρ.task t).endTime f = pl.finish := by
    intro hc
    rcases maxNum_eq_or (ρ.task t).endTime f with hm | hm <;> rw [hm]
    · exact h.end_own t hc
    · exact .inr (hown hc)
  have hd : ∀ extra : List Event, ∀ pl ∈ ρ.log, pl.id.task = t →
      Event.done pl.id.task pl.id.subtask ∉ extra ++ rest →
      pl.finish.le (Double.maxNum (ρ.task t).endTime f) := by
    intro extra pl hpl hpt hn
    by_cases hev : ev = .done pl.id.task pl.id.subtask
    · exact Double.le_trans (hdone pl hpl hev) hF
    · have hdl := h.delivered pl hpl (not_mem_cons_of_not_mem_append hev hn)
      rw [hpt] at hdl
      exact Double.le_trans hdl hE
  have hes : ∀ extra : List Event, ∀ pl ∈ ρ.log, pl.id.task ≠ t →
      Event.done pl.id.task pl.id.subtask ∉ extra ++ rest →
      Event.done pl.id.task pl.id.subtask ∉ ev :: rest := by
    intro extra pl hpl hpt hn
    refine not_mem_cons_of_not_mem_append (fun hev => hpt ?_) hn
    have hc := he.counted
    rw [hev] at hc
    simpa using hc
  unfold Direct.finishInput
  dsimp only
  rw [if_pos ⟨he.lt, by omega⟩]
  split
  · refine h.setTask (h.begin_ge t) (h.begin_attained t) hbq hbl (le_trans (h.end_ge t) hE)
      ((h.end_attained t).maxNum hfa) heo (fun hc => ?_)
      (Nat.le_trans (Nat.sub_le _ _) (h.pending_le t)) (hd _) (hes _)
    have hr : (ρ.task t).endTime = P.release := by simpa [hne] using h.end_unitless t hc
    show Double.maxNum (ρ.task t).endTime f = (ρ.task t).beginTime
    rw [hr, hless hc, maxNum_eq_right_of_le (h.begin_ge t)]
  · rename_i hmore
    refine h.setTask (h.begin_ge t) (h.begin_attained t) hbq hbl (le_trans (h.end_ge t) hE)
      ((h.end_attained t).maxNum hfa) heo (fun hc => ?_)
      (Nat.le_trans (Nat.sub_le _ _) (h.pending_le t)) (hd _) (hes _)
    -- a task without units awaits one input only
    have := h.pending_le t
    rw [hc] at this
    exact absurd (by simp at hmore this; omega) hmore

/-- Every delivery keeps the time invariant. -/
theorem TimeInv.step {ev : Event} (hI : Inv P ρ (ev :: rest)) (h : TimeInv P ρ (ev :: rest)) :
    TimeInv P (step P ρ ev).1 ((step P ρ ev).2 ++ rest) := by
  have hwf := hI.events_wf ev List.mem_cons_self
  cases ev with
  | input pred t => exact h.input hI
  | release t k => exact h.release
  | skip t =>
    exact h.finishInput hI ⟨hwf.1, by simp, by simp, by simp, fun x hx => by simp [Ne.symm hx]⟩
      (h.begin_ge t) (h.begin_attained t) (fun hc => absurd hwf.2 hc) (fun _ => rfl) nofun
  | done t k =>
    -- the unit was placed, so its finish is the one of its placement
    obtain ⟨pl, hpl, hid⟩ := List.mem_map.1 (hI.placed_mem _ (hI.done_placed t k List.mem_cons_self))
    have hfin : (ρ.unit ⟨t, k⟩).timing.finish = pl.finish := by
      rw [← hid]
      exact hI.finish_of_logged hpl
    have hpt : pl.id.task = t := by rw [hid]
    have hbr := h.placed pl hpl
    rw [hpt] at hbr
    refine h.finishInput hI ⟨hwf.1, by simp, by simp, by simp, fun x hx => by simp [Ne.symm hx]⟩
      ?_ ?_ (fun _ => ⟨pl, hpl, hpt, hfin⟩) (fun hc => absurd hwf.2 (by omega)) ?_
    · rw [hfin]
      exact Double.le_trans (h.begin_ge t) (Double.le_trans hbr.1 hbr.2)
    · rw [hfin]
      exact .inr ⟨pl, hpl, rfl⟩
    · intro q hq hev
      rw [Event.done.injEq] at hev
      have hq' : (⟨t, k⟩ : UnitId) = q.id := by rw [hev.1, hev.2]
      rw [hq', hI.finish_of_logged hq]
      exact le_refl_of_not_isNaN (isNaN_eq_false_of_le_right (h.placed q hq).2)

theorem TimeInv.drain (hg : P.graph.WellFormed) {es : List Event} (hI : Inv P ρ es)
    (h : TimeInv P ρ es) : TimeInv P (drain P ρ es) [] := by
  induction ρ, es using Direct.drain.induct P with
  | case1 ρ =>
    rw [Direct.drain]
    exact h
  | case2 ρ ev rest ih =>
    rw [Direct.drain]
    exact ih (hI.step hg) (h.step hI)

end Step

section Assign

variable (hx : ∀ u, P.Valid u → (P.execTime u).isValidTime = true)
include hx

/-- An assignment places the head of the queue no earlier than it was ready, and the unit
finishes no earlier than it starts, execution times being finite and not negative. -/
theorem TimeInv.assign (hI : Inv P ρ []) (h : TimeInv P ρ []) {u : UnitId} {rest : List UnitId}
    (hq : ρ.queue = u :: rest) (f : Free) :
    TimeInv P (assign P { ρ with queue := rest } u f) [.done u.task u.subtask] := by
  obtain ⟨⟨hvalid, -⟩, hrest, -, -⟩ := hI.queue_head hq
  obtain ⟨R, hR⟩ : ∃ R, R = Double.maxNum (ρ.unit u).timing.ready f.time := ⟨_, rfl⟩
  have hlog : (Direct.assign P { ρ with queue := rest } u f).log =
      ρ.log ++ [⟨u, f.processor, R, R + P.execTime u, f.stamp⟩] := by
    rw [hR]
    rfl
  have hready := h.queued u (by rw [hq]; exact List.mem_cons_self)
  have hbR : (ρ.task u.task).beginTime.le R := by
    rw [hR]
    exact Double.le_trans hready (le_maxNum_left _ (isNaN_eq_false_of_le_right hready))
  have hRn := isNaN_eq_false_of_le_right hbR
  have hRF : R.le (R + P.execTime u) := by
    rw [add_comm_of_isNaN (.inl hRn)]
    exact le_add_of_isValidTime (hx u hvalid) hRn
  have hsub : ρ.log ⊆ (Direct.assign P { ρ with queue := rest } u f).log := by
    rw [hlog]
    exact List.subset_append_left _ _
  refine ⟨h.begin_ge, h.end_ge, fun t => (h.begin_attained t).of_log hsub,
    fun t => (h.end_attained t).of_log hsub, fun t hc => ?_, h.end_unitless, h.pending_le,
    fun v hv => ?_, fun pl hpl => ?_, fun pl hpl hn => ?_⟩
  · rcases h.end_own t hc with he | ⟨pl, hpl, hpt, he⟩
    · exact .inl he
    · exact .inr ⟨pl, hsub hpl, hpt, he⟩
  · have hv : v ∈ rest := hv
    have hvu : v ≠ u := fun he => by
      rw [he] at hv
      exact List.count_eq_zero.1 hrest hv
    show (ρ.task v.task).beginTime.le (Function.update ρ.unit u _ v).timing.ready
    rw [Function.update_of_ne hvu]
    exact h.queued v (by rw [hq]; exact List.mem_cons_of_mem _ hv)
  · rw [hlog] at hpl
    rcases List.mem_append.1 hpl with hpl | hpl
    · exact h.placed pl hpl
    · rw [List.mem_singleton.1 hpl]
      exact ⟨hbR, hRF⟩
  · rw [hlog] at hpl
    rcases List.mem_append.1 hpl with hpl | hpl
    · exact h.delivered pl hpl List.not_mem_nil
    · rw [List.mem_singleton.1 hpl] at hn
      exact absurd (List.mem_singleton_self _) hn

theorem TimeInv.dispatch (hg : P.graph.WellFormed) (hI : Inv P ρ []) (h : TimeInv P ρ []) :
    TimeInv P (dispatch P ρ) [] := by
  induction ρ using Direct.dispatch.induct P with
  | case1 ρ hq =>
    rw [dispatch_of_queue_nil hq]
    exact h
  | case2 ρ u rest hq hf =>
    rw [dispatch_of_pick_none hf]
    exact h
  | case3 ρ u rest hq f hf ih =>
    rw [dispatch_of_pick_some hq hf]
    exact ih ((hI.assign hq hf).drain hg) ((h.assign hx hI hq f).drain hg (hI.assign hq hf))

end Assign

section Run

theorem TimeInv.startFires (hI : Inv P ρ []) (h : TimeInv P ρ []) {t : Nat} (ht : t < P.size)
    (hnb : (ρ.task t).begun = false) :
    TimeInv P (ρ.setTask t { ρ.task t with
      beginTime := Double.maxNum (ρ.task t).beginTime P.release, begun := true })
      (P.beginEvents t) :=
  h.setBegin hI ht hnb (le_maxNum_right _ (isNaN_eq_false_of_le_left (h.begin_ge t)))
    ((h.begin_attained t).maxNum .release) rfl rfl rfl fun _ _ _ => List.not_mem_nil

theorem TimeInv.start (hg : P.graph.WellFormed) (hI : Inv P ρ []) (h : TimeInv P ρ [])
    (t : Nat) : TimeInv P (start P ρ t) [] := by
  unfold Direct.start
  dsimp only
  split
  · rename_i hs
    obtain ⟨ht, hnb, hr⟩ := hs
    exact TimeInv.drain hg (hI.startFires ht hnb hr) (h.startFires hI ht hnb)
  · exact h

theorem TimeInv.initial (hr : P.release.isNaN = false) : TimeInv P (initial P) [] where
  begin_ge _ := le_refl_of_not_isNaN hr
  end_ge _ := le_refl_of_not_isNaN hr
  begin_attained _ := .release
  end_attained _ := .release
  end_own _ _ := .inl rfl
  end_unitless _ _ := rfl
  pending_le _ := Nat.le_refl _
  queued := nofun
  placed := nofun
  delivered := nofun

theorem TimeInv.foldl_start (hg : P.graph.WellFormed) (hI : Inv P ρ []) (h : TimeInv P ρ [])
    (linked : List Nat) : TimeInv P (linked.foldl (Direct.start P) ρ) [] := by
  induction linked generalizing ρ with
  | nil => exact h
  | cons t rest ih => exact ih (hI.start hg t) (h.start hg hI t)

theorem TimeInv.schedule (hg : P.graph.WellFormed) (hr : P.release.isNaN = false)
    (hx : ∀ u, P.Valid u → (P.execTime u).isValidTime = true) (linked : List Nat) :
    TimeInv P (schedule P linked) [] :=
  ((TimeInv.initial hr).foldl_start hg Inv.initial linked).dispatch hx hg
    (Inv.initial.foldl_start hg linked)

section Placed

variable (hI : Inv P ρ []) (h : TimeInv P ρ [])
include hI h

theorem TimeInv.placed_unit {u : UnitId} (hu : (ρ.unit u).processor.isSome = true) :
    (ρ.task u.task).beginTime.le (ρ.unit u).timing.ready ∧
      (ρ.unit u).timing.ready.le (ρ.unit u).timing.finish ∧
      (ρ.unit u).timing.finish.le (ρ.task u.task).endTime := by
  obtain ⟨pl, hpl, rfl⟩ := List.mem_map.1 (hI.placed_mem u hu)
  rw [hI.log_unit pl hpl]
  exact ⟨(h.placed pl hpl).1, (h.placed pl hpl).2, h.delivered pl hpl List.not_mem_nil⟩

theorem TimeInv.end_numEq_finish {t : Nat} (hc : 0 < P.unitCount t)
    (hplaced : ∀ k < P.unitCount t, (ρ.unit ⟨t, k⟩).processor.isSome = true) :
    ∃ k < P.unitCount t, (ρ.task t).endTime.numEq (ρ.unit ⟨t, k⟩).timing.finish := by
  rcases h.end_own t (by omega) with he | ⟨pl, hpl, hpt, he⟩
  · -- the end kept the release time, so the first unit finished exactly then
    obtain ⟨hb, hrf, hfe⟩ := h.placed_unit hI (hplaced 0 hc)
    refine ⟨0, hc, numEq_of_le_of_le ?_ hfe⟩
    rw [he]
    exact Double.le_trans (h.begin_ge t) (Double.le_trans hb hrf)
  · have hv := hI.valid_of_logged hpl
    have hid : (⟨t, pl.id.subtask⟩ : UnitId) = pl.id := by rw [← hpt]
    refine ⟨pl.id.subtask, hpt ▸ hv.2, ?_⟩
    rw [hid, hI.finish_of_logged hpl, he]
    exact numEq_refl (isNaN_eq_false_of_le_right (h.placed pl hpl).2)

end Placed

end Run

end ListScheduling.Direct
