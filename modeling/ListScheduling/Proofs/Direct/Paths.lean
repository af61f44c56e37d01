import ListScheduling.Proofs.Direct.Times
import ListScheduling.Proofs.Refinement.Drain
import ListScheduling.Proofs.Task.Order

/-!
Precedence along the paths of a graph, in the direct scheduler.
-/
namespace ListScheduling

namespace Direct

open Double

variable (P : Problem)

/-- What the order of a run holds with the deliveries `es` pending. -/
structure OrderInv (ρ : State) (es : List Event) : Prop where
  begin_bound : ∀ s < P.size, ∀ t ∈ P.graph.successors s, (ρ.task s).ended = true →
    Event.input s t ∉ es → (ρ.task s).endTime.le (ρ.task t).beginTime
  input_ended : ∀ s t, Event.input s t ∈ es →
    (ρ.task s).ended = true ∧ t ∈ P.graph.successors s
  placed_finish : ∀ pl ∈ ρ.log, pl.finish = pl.ready + P.execTime pl.id

variable {P} {ρ : State} {es : List Event}

section Step

/-- The begin of a task that has not begun moves to the later of its time and `x`. The inputs
taken on the way are into that begin, from ends no later than `x`. -/
theorem OrderInv.raise (hT : TimeInv P ρ es) (h : OrderInv P ρ es) {t : Nat}
    {ts : TaskState} {x : Double} (hts : ts.beginTime = Double.maxNum (ρ.task t).beginTime x)
    (hend : ts.endTime = (ρ.task t).endTime) (hended : ts.ended = (ρ.task t).ended)
    (hxn : x.isNaN = false) {es' : List Event}
    (hin : ∀ s y, Event.input s y ∈ es' → Event.input s y ∈ es)
    (hout : ∀ s y, Event.input s y ∈ es → Event.input s y ∉ es' →
      y = t ∧ (ρ.task s).endTime.le x) :
    OrderInv P (ρ.setTask t ts) es' := by
  -- ends and their firing are untouched, and the begin only moves forward
  have hsame : ∀ s, ((ρ.setTask t ts).task s).ended = (ρ.task s).ended ∧
      ((ρ.setTask t ts).task s).endTime = (ρ.task s).endTime := by
    intro s
    rw [setTask_task]
    split
    · subst s
      exact ⟨hended, hend⟩
    · exact ⟨rfl, rfl⟩
  have hbn := isNaN_eq_false_of_le_right (hT.begin_ge t)
  have hgrow : ∀ y, (ρ.task y).beginTime.le ((ρ.setTask t ts).task y).beginTime := by
    intro y
    rw [setTask_task]
    split
    · subst y
      rw [hts]
      exact le_maxNum_left x hbn
    · exact le_refl_of_not_isNaN (isNaN_eq_false_of_le_right (hT.begin_ge y))
  refine ⟨fun s hs y hy he hn => ?_, fun s y hm => ?_, h.placed_finish⟩
  · rw [(hsame s).1] at he
    rw [(hsame s).2]
    by_cases hm : Event.input s y ∈ es
    · obtain ⟨rfl, hle⟩ := hout s y hm hn
      rw [setTask_task_self, hts]
      exact le_trans hle (le_maxNum_right _ hxn)
    · exact le_trans (h.begin_bound s hs y hy he hm) (hgrow y)
  · obtain ⟨he, hy⟩ := h.input_ended s y (hin s y hm)
    exact ⟨(hsame s).1 ▸ he, hy⟩

variable {pred t k : Nat} {rest : List Event}

/-- An input of a begin, from an end that fired: the begin moves to the later of its time and
that end. -/
theorem OrderInv.input (hI : Inv P ρ (.input pred t :: rest))
    (hT : TimeInv P ρ (.input pred t :: rest)) (h : OrderInv P ρ (.input pred t :: rest)) :
    OrderInv P (step P ρ (.input pred t)).1 ((step P ρ (.input pred t)).2 ++ rest) := by
  -- the begin's own deliveries hold no input, so only this one is taken
  have hin : ∀ extra : List Event, (∀ s y, Event.input s y ∉ extra) →
      ∀ s y, Event.input s y ∈ extra ++ rest → Event.input s y ∈ Event.input pred t :: rest :=
    fun extra hx s y hm => List.mem_cons_of_mem _ ((List.mem_append.1 hm).resolve_left (hx s y))
  have hout : ∀ extra : List Event, ∀ s y, Event.input s y ∈ Event.input pred t :: rest →
      Event.input s y ∉ extra ++ rest → y = t ∧ (ρ.task s).endTime.le (ρ.task pred).endTime := by
    intro extra s y hm hn
    rcases List.mem_cons.1 hm with he | hm
    · rw [Event.input.injEq] at he
      obtain ⟨rfl, rfl⟩ := he
      exact ⟨rfl, le_refl_of_not_isNaN (isNaN_eq_false_of_le_right (hT.end_ge s))⟩
    · exact absurd (List.mem_append_right _ hm) hn
  have hxn := isNaN_eq_false_of_le_right (hT.end_ge pred)
  have ht : t < P.size := (hI.events_wf _ List.mem_cons_self).2
  have hr := hI.remaining_eq t ht
  simp only [List.countP_cons, Event.isInputTo_input, beq_self_eq_true, if_true] at hr
  simp only [step]
  rw [if_pos ⟨ht, by omega⟩]
  split
  · refine h.raise hT (by rfl) (by rfl) (by rfl) hxn (hin _ fun s y hm => ?_) (hout _)
    exact input_not_mem_beginEvents s y t hm
  · exact h.raise hT (by rfl) (by rfl) (by rfl) hxn (hin [] fun _ _ h => by cases h) (hout [])

theorem OrderInv.release (h : OrderInv P ρ (.release t k :: rest)) :
    OrderInv P (step P ρ (.release t k)).1 ((step P ρ (.release t k)).2 ++ rest) := by
  have hold : ∀ s y, Event.input s y ∈ [] ++ rest → Event.input s y ∈ Event.release t k :: rest :=
    fun s y hm => List.mem_cons_of_mem _ hm
  refine ⟨fun s hs y hy he hn => h.begin_bound s hs y hy he fun hm => hn ?_,
    fun s y hm => h.input_ended s y (hold s y hm), h.placed_finish⟩
  rcases List.mem_cons.1 hm with he | hm
  · cases he
  · exact hm

/-- An end that has not fired takes an input: its time and count change, and when it fires the
inputs it sends to its successors' begins are pending. -/
theorem OrderInv.setEnd {ev : Event} (h : OrderInv P ρ (ev :: rest))
    (hev : ∀ s y, ev ≠ .input s y) (hne : (ρ.task t).ended = false) {ts : TaskState}
    (hbeg : ts.beginTime = (ρ.task t).beginTime) {extra : List Event}
    (hfire : ts.ended = true → ∀ y ∈ P.graph.successors t, Event.input t y ∈ extra)
    (hextra : ∀ s y, Event.input s y ∈ extra →
      s = t ∧ ts.ended = true ∧ y ∈ P.graph.successors t) :
    OrderInv P (ρ.setTask t ts) (extra ++ rest) := by
  have hbegin : ∀ y, ((ρ.setTask t ts).task y).beginTime = (ρ.task y).beginTime := by
    intro y
    rw [setTask_task]
    split
    · subst y
      exact hbeg
    · rfl
  have hended : ∀ s, (ρ.task s).ended = true → (ρ.setTask t ts).task s = ρ.task s := by
    intro s hs
    have hst : s ≠ t := fun he => by rw [he, hne] at hs; cases hs
    exact setTask_task_of_ne hst
  refine ⟨fun s hs y hy he hn => ?_, fun s y hm => ?_, h.placed_finish⟩
  · rw [hbegin]
    by_cases hst : s = t
    · subst hst
      rw [setTask_task_self] at he
      exact absurd (List.mem_append_left _ (hfire he y hy)) hn
    · rw [setTask_task_of_ne hst] at he ⊢
      refine h.begin_bound s hs y hy he fun hm => ?_
      rcases List.mem_cons.1 hm with he' | hm
      · exact hev s y he'.symm
      · exact hn (List.mem_append_right _ hm)
  · rcases List.mem_append.1 hm with hm | hm
    · obtain ⟨rfl, he, hy⟩ := hextra s y hm
      rw [setTask_task_self]
      exact ⟨he, hy⟩
    · obtain ⟨he, hy⟩ := h.input_ended s y (List.mem_cons_of_mem _ hm)
      rw [hended s he]
      exact ⟨he, hy⟩

/-- An input of an end, whether it fires or waits. -/
theorem OrderInv.finishInput {ev : Event} (hI : Inv P ρ (ev :: rest)) (he : EndInput P ev t)
    (h : OrderInv P ρ (ev :: rest)) (f : Double) :
    OrderInv P (finishInput P ρ t f).1 ((finishInput P ρ t f).2 ++ rest) := by
  have hp := he.pending_pos hI
  have hne : (ρ.task t).ended = false := Bool.eq_false_iff.2 fun hE => by
    have := (hI.ended_iff t he.lt).1 hE
    omega
  have hev : ∀ s y, ev ≠ .input s y := fun s y hev => by
    have := he.not_input y
    rw [hev] at this
    simp at this
  unfold Direct.finishInput
  dsimp only
  rw [if_pos ⟨he.lt, by omega⟩]
  split
  · refine h.setEnd hev hne (by rfl) (fun _ y hy => List.mem_map_of_mem hy) fun s y hm => ?_
    obtain ⟨x, hx, hxe⟩ := List.mem_map.1 hm
    rw [Event.input.injEq] at hxe
    obtain ⟨rfl, rfl⟩ := hxe
    exact ⟨rfl, rfl, hx⟩
  · refine h.setEnd hev hne (by rfl) (fun hE => absurd hE ?_) fun _ _ hm => by cases hm
    show (ρ.task t).ended ≠ true
    rw [hne]
    decide

theorem OrderInv.step {ev : Event} (hI : Inv P ρ (ev :: rest)) (hT : TimeInv P ρ (ev :: rest))
    (h : OrderInv P ρ (ev :: rest)) : OrderInv P (step P ρ ev).1 ((step P ρ ev).2 ++ rest) := by
  have hwf := hI.events_wf ev List.mem_cons_self
  cases ev with
  | input pred t => exact h.input hI hT
  | release t k => exact h.release
  | skip t =>
    exact h.finishInput hI ⟨hwf.1, by simp, by simp, by simp, fun x hx => by simp [Ne.symm hx]⟩ _
  | done t k =>
    exact h.finishInput hI ⟨hwf.1, by simp, by simp, by simp, fun x hx => by simp [Ne.symm hx]⟩ _

theorem OrderInv.drain (hg : P.graph.WellFormed) (hI : Inv P ρ es) (hT : TimeInv P ρ es)
    (h : OrderInv P ρ es) : OrderInv P (drain P ρ es) [] := by
  induction ρ, es using Direct.drain.induct P with
  | case1 ρ =>
    rw [Direct.drain]
    exact h
  | case2 ρ ev rest ih =>
    rw [Direct.drain]
    exact ih (hI.step hg) (hT.step hI) (h.step hI hT)

end Step

section Run

theorem OrderInv.assign (h : OrderInv P ρ []) {u : UnitId} {rest : List UnitId} (f : Free) :
    OrderInv P (assign P { ρ with queue := rest } u f) [.done u.task u.subtask] := by
  obtain ⟨R, hR⟩ : ∃ R, R = Double.maxNum (ρ.unit u).timing.ready f.time := ⟨_, rfl⟩
  have hlog : (Direct.assign P { ρ with queue := rest } u f).log =
      ρ.log ++ [⟨u, f.processor, R, R + P.execTime u, f.stamp⟩] := by
    rw [hR]
    rfl
  refine ⟨fun s hs y hy he _ => h.begin_bound s hs y hy he List.not_mem_nil,
    fun s y hm => by simp at hm, fun pl hpl => ?_⟩
  rw [hlog] at hpl
  rcases List.mem_append.1 hpl with hpl | hpl
  · exact h.placed_finish pl hpl
  · rw [List.mem_singleton.1 hpl]

variable (hx : ∀ u, P.Valid u → (P.execTime u).isValidTime = true)
include hx

theorem OrderInv.dispatch (hg : P.graph.WellFormed) (hI : Inv P ρ []) (hT : TimeInv P ρ [])
    (h : OrderInv P ρ []) : OrderInv P (dispatch P ρ) [] := by
  induction ρ using Direct.dispatch.induct P with
  | case1 ρ hq =>
    rw [dispatch_of_queue_nil hq]
    exact h
  | case2 ρ u rest hq hf =>
    rw [dispatch_of_pick_none hf]
    exact h
  | case3 ρ u rest hq f hf ih =>
    rw [dispatch_of_pick_some hq hf]
    have hI' := hI.assign hq hf
    have hT' := hT.assign hx hI hq f
    exact ih (hI'.drain hg) (hT'.drain hg hI') ((h.assign f).drain hg hI' hT')

omit hx in
theorem OrderInv.start (hg : P.graph.WellFormed) (hI : Inv P ρ []) (hT : TimeInv P ρ [])
    (h : OrderInv P ρ []) (t : Nat) : OrderInv P (start P ρ t) [] := by
  unfold Direct.start
  dsimp only
  split
  · rename_i hs
    obtain ⟨ht, hnb, hr⟩ := hs
    exact OrderInv.drain hg (hI.startFires ht hnb hr) (hT.startFires hI ht hnb)
      (h.raise hT (by rfl) (by rfl) (by rfl) (isNaN_eq_false_of_le_left (hT.begin_ge t))
        (fun s y hm => absurd hm (input_not_mem_beginEvents s y t)) fun _ _ hm => by cases hm)
  · exact h

omit hx in
theorem OrderInv.initial : OrderInv P (initial P) [] where
  begin_bound _ _ _ _ he := by simp [Direct.initial] at he
  input_ended _ _ hm := by cases hm
  placed_finish _ hpl := by cases hpl

omit hx in
theorem OrderInv.foldl_start (hg : P.graph.WellFormed) (hI : Inv P ρ []) (hT : TimeInv P ρ [])
    (h : OrderInv P ρ []) (linked : List Nat) :
    OrderInv P (linked.foldl (Direct.start P) ρ) [] := by
  induction linked generalizing ρ with
  | nil => exact h
  | cons t rest ih => exact ih (hI.start hg t) (hT.start hg hI t) (h.start hg hI hT t)

theorem OrderInv.schedule (hg : P.graph.WellFormed) (hr : P.release.isNaN = false)
    (linked : List Nat) : OrderInv P (schedule P linked) [] :=
  (OrderInv.initial.foldl_start hg Inv.initial (TimeInv.initial hr) linked).dispatch hx hg
    (Inv.initial.foldl_start hg linked) ((TimeInv.initial hr).foldl_start hg Inv.initial linked)

end Run

section Paths

/-! With nothing on its way, a task that began had every task before it on a path end, and each of
them ended no earlier than it began; so the ends and begins along a path are in order. -/

namespace Inv

variable (hI : Inv P ρ [])
include hI

theorem placed_of_ended {u : UnitId} (hu : P.Valid u) (he : (ρ.task u.task).ended = true) :
    (ρ.unit u).processor.isSome = true := by
  obtain ⟨t, k⟩ := u
  have hs : unsent P ρ t = 0 := by
    have hp := hI.pending_eq t hu.1
    have h0 := (hI.ended_iff t hu.1).1 he
    rw [List.countP_nil, Nat.add_zero] at hp
    omega
  have hc : P.unitCount t ≠ 0 := Nat.ne_zero_of_lt hu.2
  unfold unsent unplaced at hs
  rw [if_neg hc] at hs
  have hk := List.countP_eq_zero.1 hs k (List.mem_range.2 hu.2)
  simpa [Option.isNone_iff_eq_none, Option.isSome_iff_ne_none] using hk

theorem ended_of_edge {s t : Nat} (hst : P.graph.Edge s t) (ht : t < P.size)
    (hb : (ρ.task t).begun = true) : (ρ.task s).ended = true := by
  have hr := hI.remaining_eq t ht
  rw [hI.remaining_of_begun t hb, List.countP_nil, Nat.add_zero] at hr
  exact ended_of_openDeps hr.symm (P.graph.lt_size_of_edge hst) hst

theorem ended_of_path {s t : Nat} (hst : Relation.TransGen P.graph.Edge s t) (ht : t < P.size)
    (hb : (ρ.task t).begun = true) : (ρ.task s).ended = true := by
  induction hst with
  | single h => exact hI.ended_of_edge h ht hb
  | tail _ hkt ih =>
    -- the last task before `t` ended, so it began
    have hk := P.graph.lt_size_of_edge hkt
    exact ih hk (hI.begun_of_ended hk (hI.ended_of_edge hkt ht hb))

end Inv

theorem TimeInv.begin_le_end (hI : Inv P ρ []) (hT : TimeInv P ρ []) {t : Nat} (ht : t < P.size)
    (he : (ρ.task t).ended = true) : (ρ.task t).beginTime.le (ρ.task t).endTime := by
  by_cases hc : P.unitCount t = 0
  · rw [hT.end_unitless t hc, if_pos he]
    exact le_refl_of_not_isNaN (isNaN_eq_false_of_le_right (hT.begin_ge t))
  · obtain ⟨h₁, h₂, h₃⟩ := hT.placed_unit hI
      (hI.placed_of_ended (u := ⟨t, 0⟩) ⟨ht, Nat.pos_of_ne_zero hc⟩ he)
    exact le_trans h₁ (le_trans h₂ h₃)

theorem OrderInv.end_le_begin_of_path (hI : Inv P ρ []) (hT : TimeInv P ρ [])
    (h : OrderInv P ρ []) {s t : Nat} (hst : Relation.TransGen P.graph.Edge s t)
    (ht : t < P.size) (hb : (ρ.task t).begun = true) :
    (ρ.task s).endTime.le (ρ.task t).beginTime := by
  induction hst with
  | single hs =>
    exact h.begin_bound _ (P.graph.lt_size_of_edge hs) _ hs (hI.ended_of_edge hs ht hb)
      List.not_mem_nil
  | tail _ hkt ih =>
    have hk := P.graph.lt_size_of_edge hkt
    have hke := hI.ended_of_edge hkt ht hb
    have hkb := hI.begun_of_ended hk hke
    exact le_trans (ih hk hkb)
      (le_trans (hT.begin_le_end hI hk hke) (h.begin_bound _ hk _ hkt hke List.not_mem_nil))

theorem OrderInv.finish_le_ready_of_path (hI : Inv P ρ []) (hT : TimeInv P ρ [])
    (h : OrderInv P ρ []) {u v : UnitId} (hu : P.Valid u) (hv : P.Valid v)
    (hpath : Relation.TransGen P.graph.Edge u.task v.task)
    (hvp : (ρ.unit v).processor.isSome = true) :
    (ρ.unit u).processor.isSome = true ∧ (ρ.unit u).timing.finish.le (ρ.unit v).timing.ready := by
  have hb := hI.begun_of_placed hvp
  have hup := hI.placed_of_ended hu (hI.ended_of_path hpath hv.1 hb)
  exact ⟨hup, le_trans (hT.placed_unit hI hup).2.2
    (le_trans (h.end_le_begin_of_path hI hT hpath hv.1 hb) (hT.placed_unit hI hvp).1)⟩

end Paths

section Log

variable (P) in
/-- Every placement of a log comes after the placements of every unit of the tasks before its
own on a path. -/
def LogOrdered (log : List Placement) : Prop :=
  ∀ b (hb : b < log.length) (u : UnitId), P.Valid u →
    Relation.TransGen P.graph.Edge u.task log[b].id.task → u ∈ (log.take b).map Placement.id

theorem LogOrdered.nil : LogOrdered P [] := fun _ hb => absurd hb (Nat.not_lt_zero _)

theorem LogOrdered.append {log : List Placement} (h : LogOrdered P log) {pl : Placement}
    (hpl : ∀ u, P.Valid u → Relation.TransGen P.graph.Edge u.task pl.id.task →
      u ∈ log.map Placement.id) :
    LogOrdered P (log ++ [pl]) := by
  intro b hb u hu hpath
  rcases Nat.lt_or_ge b log.length with hlt | hge
  · rw [List.getElem_append_left hlt] at hpath
    rw [List.take_append_of_le_length hlt.le]
    exact h b hlt u hu hpath
  · have hbl : b = log.length := by
      rw [List.length_append, List.length_singleton] at hb
      omega
    subst hbl
    simp only [List.getElem_append_right (Nat.le_refl _), Nat.sub_self,
      List.getElem_singleton] at hpath
    rw [List.take_left]
    exact hpl u hu hpath

theorem LogOrdered.assign (hI : Inv P ρ []) (h : LogOrdered P ρ.log) {u : UnitId}
    {rest : List UnitId} (hq : ρ.queue = u :: rest) (f : Free) :
    LogOrdered P (assign P { ρ with queue := rest } u f).log := by
  obtain ⟨⟨hu, hb⟩, -⟩ := hI.queue_head hq
  exact h.append fun u' hu' hpath =>
    hI.placed_mem u' (hI.placed_of_ended hu' (hI.ended_of_path hpath hu.1 hb))

theorem LogOrdered.dispatch (hg : P.graph.WellFormed) (hI : Inv P ρ []) (h : LogOrdered P ρ.log) :
    LogOrdered P (dispatch P ρ).log := by
  induction ρ using Direct.dispatch.induct P with
  | case1 ρ hq =>
    rw [dispatch_of_queue_nil hq]
    exact h
  | case2 ρ u rest hq hf =>
    rw [dispatch_of_pick_none hf]
    exact h
  | case3 ρ u rest hq f hf ih =>
    rw [dispatch_of_pick_some hq hf]
    refine ih ((hI.assign hq hf).drain hg) ?_
    rw [log_drain]
    exact h.assign hI hq f

theorem log_foldl_start (linked : List Nat) : (linked.foldl (start P) ρ).log = ρ.log := by
  induction linked generalizing ρ with
  | nil => rfl
  | cons t rest ih =>
    rw [List.foldl_cons, ih]
    unfold Direct.start
    dsimp only
    split
    · rw [log_drain]
      rfl
    · rfl

theorem LogOrdered.schedule (hg : P.graph.WellFormed) (linked : List Nat) :
    LogOrdered P (schedule P linked).log := by
  refine LogOrdered.dispatch hg (Inv.initial.foldl_start hg linked) ?_
  rw [log_foldl_start]
  exact LogOrdered.nil

end Log

end Direct

end ListScheduling
