import ListScheduling.Proofs.Direct.Machine

/-!
The bookkeeping invariant of the direct scheduler.
-/
namespace ListScheduling

/-- Every successor a graph records is one of its tasks. -/
def TaskGraph.WellFormed (g : TaskGraph) : Prop := ∀ s < g.size, ∀ t ∈ g.successors s, t < g.size

namespace Direct

namespace Event

/-- Whether a delivery is an input of the begin of `t`. -/
def isInputTo (t : Nat) : Event → Bool
  | .input _ t' => t' == t
  | _ => false

/-- Whether a delivery releases unit `u`. -/
def isReleaseOf (u : UnitId) : Event → Bool
  | .release t k => t == u.task && k == u.subtask
  | _ => false

/-- Whether a delivery is an input of the end of `t`. -/
def isEndInputOf (t : Nat) : Event → Bool
  | .skip t' | .done t' _ => t' == t
  | _ => false

@[simp] theorem isInputTo_input (p t x : Nat) : (Event.input p t).isInputTo x = (t == x) := rfl
@[simp] theorem isInputTo_release (t k x : Nat) : (Event.release t k).isInputTo x = false := rfl
@[simp] theorem isInputTo_skip (t x : Nat) : (Event.skip t).isInputTo x = false := rfl
@[simp] theorem isInputTo_done (t k x : Nat) : (Event.done t k).isInputTo x = false := rfl

@[simp] theorem isReleaseOf_input (p t : Nat) (u : UnitId) :
    (Event.input p t).isReleaseOf u = false := rfl
@[simp] theorem isReleaseOf_release (t k : Nat) (u : UnitId) :
    (Event.release t k).isReleaseOf u = (t == u.task && k == u.subtask) := rfl
@[simp] theorem isReleaseOf_skip (t : Nat) (u : UnitId) : (Event.skip t).isReleaseOf u = false :=
  rfl
@[simp] theorem isReleaseOf_done (t k : Nat) (u : UnitId) :
    (Event.done t k).isReleaseOf u = false := rfl

@[simp] theorem isEndInputOf_input (p t x : Nat) : (Event.input p t).isEndInputOf x = false := rfl
@[simp] theorem isEndInputOf_release (t k x : Nat) :
    (Event.release t k).isEndInputOf x = false := rfl
@[simp] theorem isEndInputOf_skip (t x : Nat) : (Event.skip t).isEndInputOf x = (t == x) := rfl
@[simp] theorem isEndInputOf_done (t k x : Nat) : (Event.done t k).isEndInputOf x = (t == x) :=
  rfl

/-- A delivery the problem can cause: between tasks it has, to units they have. -/
def Wf (P : Problem) : Event → Prop
  | .input pred t => pred < P.size ∧ t < P.size
  | .release t k => t < P.size ∧ k < P.unitCount t
  | .skip t => t < P.size ∧ P.unitCount t = 0
  | .done t k => t < P.size ∧ k < P.unitCount t

end Event

namespace Problem

variable (P : Problem)

/-- A unit the problem has. -/
def Valid (u : UnitId) : Prop := u.task < P.size ∧ u.subtask < P.unitCount u.task

instance (u : UnitId) : Decidable (P.Valid u) := inferInstanceAs (Decidable (_ ∧ _))

/-- The free moment a stamp stands for: a processor's first one, or the one an assignment
made. -/
def moment (log : List Placement) (σ : Nat) : Free :=
  if σ < P.processors then ⟨σ, P.release, σ⟩
  else match log[σ - P.processors]? with
    | some pl => ⟨pl.processor, pl.finish, σ⟩
    | none => ⟨0, P.release, σ⟩

/-- The moments of every stamp given so far that no placement took, in stamp order. -/
def freeMoments (log : List Placement) : List Free :=
  ((List.range (P.processors + log.length)).filter (· ∉ log.map Placement.taken)).map
    (P.moment log)

end Problem

variable (P : Problem)

/-- Dependencies recorded into `t` from tasks whose end has not fired. -/
def openDeps (ρ : State) (t : Nat) : Nat :=
  ∑ s ∈ Finset.range P.size, if (ρ.task s).ended then 0 else (P.graph.successors s).count t

/-- The units of `t` not placed yet. -/
def unplaced (ρ : State) (t : Nat) : Nat :=
  (List.range (P.unitCount t)).countP fun k => (ρ.unit ⟨t, k⟩).processor.isNone

/-- The inputs of the end of `t` that nothing carries yet: its unplaced units, or, for a task
without units, its begin until it fires. -/
def unsent (ρ : State) (t : Nat) : Nat :=
  if P.unitCount t = 0 then (if (ρ.task t).begun then 0 else 1) else unplaced P ρ t

/-- How many places a unit is in: pending releases, entries of the queue, and a placement. -/
def whereabouts (ρ : State) (es : List Event) (u : UnitId) : Nat :=
  es.countP (·.isReleaseOf u) + ρ.queue.count u + (if (ρ.unit u).processor.isSome then 1 else 0)

/-- The invariant of the direct scheduler with the deliveries `es` pending. -/
structure Inv (ρ : State) (es : List Event) : Prop where
  events_wf : ∀ ev ∈ es, ev.Wf P
  remaining_eq : ∀ t < P.size,
    (ρ.task t).remaining = openDeps P ρ t + es.countP (·.isInputTo t)
  remaining_of_begun : ∀ t, (ρ.task t).begun = true → (ρ.task t).remaining = 0
  begun_of_remaining : ∀ t < P.size,
    (ρ.task t).remaining = 0 → 0 < P.inDegree t → (ρ.task t).begun = true
  whereabouts_eq : ∀ u,
    whereabouts ρ es u = if P.Valid u ∧ (ρ.task u.task).begun = true then 1 else 0
  pending_eq : ∀ t < P.size,
    (ρ.task t).pending = unsent P ρ t + es.countP (·.isEndInputOf t)
  ended_iff : ∀ t < P.size, (ρ.task t).ended = true ↔ (ρ.task t).pending = 0
  free_eq : ρ.free = P.freeMoments ρ.log
  taken_lt : ∀ j (h : j < ρ.log.length), ρ.log[j].taken < P.processors + j
  taken_nodup : (ρ.log.map Placement.taken).Nodup
  log_unit : ∀ pl ∈ ρ.log, ρ.unit pl.id = ⟨⟨pl.ready, pl.finish⟩, some pl.processor⟩
  placed_mem : ∀ u, (ρ.unit u).processor.isSome = true → u ∈ ρ.log.map Placement.id
  log_nodup : (ρ.log.map Placement.id).Nodup
  done_placed : ∀ t k, Event.done t k ∈ es → (ρ.unit ⟨t, k⟩).processor.isSome = true

section Sums

theorem sum_add_eq_sum_add {f g : Nat → Nat} {t : Nat} (ht : t < P.size)
    (h : ∀ s, s ≠ t → f s = g s) :
    (∑ s ∈ Finset.range P.size, f s) + g t = (∑ s ∈ Finset.range P.size, g s) + f t := by
  have hmem := Finset.mem_range.2 ht
  have hf := Finset.add_sum_erase _ f hmem
  have hg := Finset.add_sum_erase _ g hmem
  have hrest : ∑ s ∈ (Finset.range P.size).erase t, f s =
      ∑ s ∈ (Finset.range P.size).erase t, g s :=
    Finset.sum_congr rfl fun s hs => h s (Finset.ne_of_mem_erase hs)
  omega

end Sums

section Counting

variable {P}

@[simp] theorem countP_isInputTo_beginEvents (x t : Nat) :
    (P.beginEvents t).countP (·.isInputTo x) = 0 := by
  unfold Problem.beginEvents
  split <;> simp [List.countP_map, Event.isInputTo, Function.comp_def]

@[simp] theorem countP_isInputTo_endEvents (x t : Nat) :
    (P.endEvents t).countP (·.isInputTo x) = (P.graph.successors t).count x := by
  simp [Problem.endEvents, List.countP_map, Event.isInputTo, Function.comp_def, List.count]

@[simp] theorem countP_isReleaseOf_endEvents (u : UnitId) (t : Nat) :
    (P.endEvents t).countP (·.isReleaseOf u) = 0 := by
  simp [Problem.endEvents, List.countP_map, Event.isReleaseOf, Function.comp_def]

@[simp] theorem countP_isEndInputOf_endEvents (x t : Nat) :
    (P.endEvents t).countP (·.isEndInputOf x) = 0 := by
  simp [Problem.endEvents, List.countP_map, Event.isEndInputOf, Function.comp_def]

theorem countP_isReleaseOf_beginEvents (u : UnitId) (t : Nat) :
    (P.beginEvents t).countP (·.isReleaseOf u) =
      if u.task = t ∧ u.subtask < P.unitCount t then 1 else 0 := by
  unfold Problem.beginEvents
  split
  · simp [Event.isReleaseOf]
    omega
  · simp only [List.countP_map, Function.comp_def, Event.isReleaseOf]
    by_cases ht : u.task = t
    · subst ht
      have hc : (List.range (P.unitCount u.task)).countP (fun k => k == u.subtask) =
          (List.range (P.unitCount u.task)).count u.subtask := rfl
      simp only [beq_self_eq_true, Bool.true_and, hc, true_and]
      split
      · exact List.count_eq_one_of_mem List.nodup_range (List.mem_range.2 ‹_›)
      · exact List.count_eq_zero_of_not_mem fun h => ‹¬_› (List.mem_range.1 h)
    · rw [if_neg fun h => ht h.1, List.countP_eq_zero]
      intro k _
      simp only [Bool.and_eq_true, beq_iff_eq, not_and]
      exact fun h => absurd h.symm ht

theorem countP_isEndInputOf_beginEvents (x t : Nat) :
    (P.beginEvents t).countP (·.isEndInputOf x) = if x = t ∧ P.unitCount t = 0 then 1 else 0 := by
  unfold Problem.beginEvents
  split
  · simp only [List.countP_cons, List.countP_nil, Event.isEndInputOf, beq_iff_eq]
    by_cases h : x = t <;> simp_all [eq_comm]
  · simp [List.countP_map, Event.isEndInputOf, Function.comp_def, *]

theorem not_done_mem_beginEvents (t t' k : Nat) : Event.done t' k ∉ P.beginEvents t := by
  unfold Problem.beginEvents
  split <;> simp

theorem not_done_mem_endEvents (t t' k : Nat) : Event.done t' k ∉ P.endEvents t := by
  simp [Problem.endEvents]

theorem wf_beginEvents {t : Nat} (ht : t < P.size) : ∀ ev ∈ P.beginEvents t, ev.Wf P := by
  unfold Problem.beginEvents
  split
  · simp only [List.mem_singleton, forall_eq]
    exact ⟨ht, ‹_›⟩
  · simp only [List.mem_map, List.mem_range, forall_exists_index, and_imp]
    rintro _ k hk rfl
    exact ⟨ht, hk⟩

theorem wf_endEvents (hg : P.graph.WellFormed) {t : Nat} (ht : t < P.size) :
    ∀ ev ∈ P.endEvents t, ev.Wf P := by
  simp only [Problem.endEvents, List.mem_map, forall_exists_index, and_imp]
  rintro _ x hx rfl
  exact ⟨ht, hg t ht x hx⟩

end Counting

section Frame

variable {P} {ρ : State} {t x : Nat} {ts : TaskState}

@[simp] theorem setTask_task_self : (ρ.setTask t ts).task t = ts := Function.update_self ..

@[simp] theorem setTask_task_of_ne (h : x ≠ t) : (ρ.setTask t ts).task x = ρ.task x :=
  Function.update_of_ne h ..

@[simp] theorem setTask_unit : (ρ.setTask t ts).unit = ρ.unit := rfl

@[simp] theorem setTask_queue : (ρ.setTask t ts).queue = ρ.queue := rfl

@[simp] theorem setTask_free : (ρ.setTask t ts).free = ρ.free := rfl

@[simp] theorem setTask_log : (ρ.setTask t ts).log = ρ.log := rfl

theorem setTask_task (y : Nat) : (ρ.setTask t ts).task y = if y = t then ts else ρ.task y := by
  by_cases hy : y = t
  · subst hy
    simp
  · simp [hy]

theorem remaining_setTask (h : ts.remaining = (ρ.task t).remaining) (x : Nat) :
    ((ρ.setTask t ts).task x).remaining = (ρ.task x).remaining := by
  rw [setTask_task]
  split <;> simp_all

theorem begun_setTask (h : ts.begun = (ρ.task t).begun) (x : Nat) :
    ((ρ.setTask t ts).task x).begun = (ρ.task x).begun := by
  rw [setTask_task]
  split <;> simp_all

theorem openDeps_setTask (h : ts.ended = (ρ.task t).ended) (x : Nat) :
    openDeps P (ρ.setTask t ts) x = openDeps P ρ x := by
  unfold openDeps
  refine Finset.sum_congr rfl fun s _ => ?_
  by_cases hs : s = t
  · subst hs
    simp [h]
  · simp [hs]

theorem openDeps_setTask_ended (ht : t < P.size) (hn : (ρ.task t).ended = false)
    (he : ts.ended = true) (x : Nat) :
    openDeps P (ρ.setTask t ts) x + (P.graph.successors t).count x = openDeps P ρ x := by
  have := sum_add_eq_sum_add P
    (f := fun s => if ((ρ.setTask t ts).task s).ended then 0 else (P.graph.successors s).count x)
    (g := fun s => if (ρ.task s).ended then 0 else (P.graph.successors s).count x) ht
    fun s hs => by simp [hs]
  simpa [openDeps, hn, he] using this

theorem unsent_setTask_of_ne (h : x ≠ t) : unsent P (ρ.setTask t ts) x = unsent P ρ x := by
  simp [unsent, unplaced, h]

theorem unsent_setTask (h : ts.begun = (ρ.task t).begun) (x : Nat) :
    unsent P (ρ.setTask t ts) x = unsent P ρ x := by
  by_cases hx : x = t
  · subst hx
    simp [unsent, unplaced, h]
  · exact unsent_setTask_of_ne hx

theorem whereabouts_setTask (es : List Event) (u : UnitId) :
    whereabouts (ρ.setTask t ts) es u = whereabouts ρ es u := rfl

end Frame

section Step

variable {P} {ρ : State}

theorem Inv.wf_rest {ev : Event} {rest : List Event} (h : Inv P ρ (ev :: rest)) :
    ∀ e ∈ rest, e.Wf P :=
  fun e he => h.events_wf e (List.mem_cons_of_mem _ he)

/-- A begin fires: its units are released, or its end gets its input. The deliveries `extra`
taken off the stack are the inputs that made it fire, none when it fires from the start. -/
theorem Inv.beginFires {t : Nat} (extra : List Event) {rest : List Event} {ts : TaskState}
    (h : Inv P ρ (extra ++ rest)) (ht : t < P.size) (hnb : (ρ.task t).begun = false)
    (hx : ∀ x, extra.countP (·.isInputTo x) = if x = t then (ρ.task t).remaining else 0)
    (hxr : ∀ u, extra.countP (·.isReleaseOf u) = 0) (hxe : ∀ x, extra.countP (·.isEndInputOf x) = 0)
    (hrem : ts.remaining = 0) (hbeg : ts.begun = true) (hpend : ts.pending = (ρ.task t).pending)
    (hend : ts.ended = (ρ.task t).ended) :
    Inv P (ρ.setTask t ts) (P.beginEvents t ++ rest) := by
  have hsame : ∀ x, x ≠ t → ((ρ.setTask t ts).task x) = ρ.task x := fun x hxt => by simp [hxt]
  refine ⟨?_, ?_, ?_, ?_, ?_, ?_, ?_, h.free_eq, h.taken_lt, h.taken_nodup, h.log_unit,
    h.placed_mem, h.log_nodup, ?_⟩
  · intro ev hev
    rcases List.mem_append.1 hev with hev | hev
    · exact wf_beginEvents ht ev hev
    · exact h.events_wf ev (List.mem_append_right _ hev)
  · intro x hx'
    have := h.remaining_eq x hx'
    rw [List.countP_append, hx x] at this
    rw [openDeps_setTask hend, List.countP_append, countP_isInputTo_beginEvents]
    by_cases hxt : x = t
    · subst hxt
      simp only [setTask_task_self, hrem, ↓reduceIte] at this ⊢
      omega
    · simp only [hsame x hxt, hxt, ↓reduceIte] at this ⊢
      omega
  · intro x hb
    by_cases hxt : x = t
    · subst hxt
      simpa using hrem
    · rw [hsame x hxt] at hb ⊢
      exact h.remaining_of_begun x hb
  · intro x hx' _ _
    by_cases hxt : x = t
    · subst hxt
      simpa using hbeg
    · rw [hsame x hxt] at *
      exact h.begun_of_remaining x hx' ‹_› ‹_›
  · rintro ⟨ut, uk⟩
    have hw := h.whereabouts_eq ⟨ut, uk⟩
    unfold whereabouts at hw ⊢
    rw [List.countP_append, hxr, Nat.zero_add] at hw
    rw [List.countP_append, countP_isReleaseOf_beginEvents, setTask_queue, setTask_unit]
    by_cases hut : ut = t
    · subst hut
      simp only [hnb, Bool.false_eq_true, and_false, if_false] at hw
      simp only [setTask_task_self, Problem.Valid, ht, true_and, hbeg, and_true]
      split <;> omega
    · simp only [hut, false_and, if_false, Nat.zero_add, hsame ut hut]
      exact hw
  · intro x hx'
    have hp := h.pending_eq x hx'
    rw [List.countP_append, hxe, Nat.zero_add] at hp
    rw [List.countP_append, countP_isEndInputOf_beginEvents]
    by_cases hxt : x = t
    · subst hxt
      simp only [setTask_task_self, unsent, unplaced, setTask_unit, true_and, hnb, hbeg,
        hpend, Bool.false_eq_true, ↓reduceIte] at hp ⊢
      by_cases hc : P.unitCount x = 0 <;> simp only [hc, ↓reduceIte] at hp ⊢ <;> omega
    · rw [hsame x hxt, unsent_setTask_of_ne hxt, if_neg fun h => hxt h.1, Nat.zero_add]
      exact hp
  · intro x hx'
    by_cases hxt : x = t
    · subst hxt
      simpa only [setTask_task_self, hend, hpend] using h.ended_iff x hx'
    · rw [hsame x hxt]
      exact h.ended_iff x hx'
  · intro t' k hk
    rcases List.mem_append.1 hk with hk | hk
    · exact absurd hk (not_done_mem_beginEvents _ _ _)
    · exact h.done_placed t' k (List.mem_append_right _ hk)

/-- An input of a begin that is not its last: the begin waits for one input less. -/
theorem Inv.beginWaits {pred t : Nat} {rest : List Event} {ts : TaskState}
    (h : Inv P ρ (.input pred t :: rest)) (ht : t < P.size)
    (hrem : ts.remaining = (ρ.task t).remaining - 1) (hmore : ts.remaining ≠ 0)
    (hbeg : ts.begun = (ρ.task t).begun) (hpend : ts.pending = (ρ.task t).pending)
    (hend : ts.ended = (ρ.task t).ended) :
    Inv P (ρ.setTask t ts) rest := by
  have hr := h.remaining_eq t ht
  simp only [List.countP_cons, Event.isInputTo_input, beq_self_eq_true, if_true] at hr
  have hin : ∀ x, x ≠ t → (Event.input pred t :: rest).countP (·.isInputTo x) =
      rest.countP (·.isInputTo x) := fun x hx => by simp [Ne.symm hx]
  have hsame : ∀ x, x ≠ t → ((ρ.setTask t ts).task x) = ρ.task x := fun x hxt => by simp [hxt]
  refine ⟨h.wf_rest, ?_, ?_, ?_, ?_, ?_, ?_, h.free_eq, h.taken_lt, h.taken_nodup, h.log_unit,
    h.placed_mem, h.log_nodup, fun t' k hk => h.done_placed t' k (List.mem_cons_of_mem _ hk)⟩
  · intro x hx
    rw [openDeps_setTask hend]
    by_cases hxt : x = t
    · subst hxt
      rw [setTask_task_self]
      omega
    · rw [hsame x hxt, h.remaining_eq x hx, hin x hxt]
  · intro x hx
    rw [begun_setTask hbeg] at hx
    by_cases hxt : x = t
    · subst hxt
      have := h.remaining_of_begun x hx
      omega
    · rw [hsame x hxt]
      exact h.remaining_of_begun x hx
  · intro x hx hr' hd
    by_cases hxt : x = t
    · subst hxt
      rw [setTask_task_self] at hr'
      exact absurd hr' hmore
    · rw [hsame x hxt] at *
      exact h.begun_of_remaining x hx hr' hd
  · intro u
    rw [begun_setTask hbeg, whereabouts_setTask, ← h.whereabouts_eq u]
    simp [whereabouts]
  · intro x hx
    have hp := h.pending_eq x hx
    rw [unsent_setTask hbeg]
    by_cases hxt : x = t
    · subst hxt
      simpa [hpend] using hp
    · simpa [hsame x hxt, Ne.symm hxt] using hp
  · intro x hx
    by_cases hxt : x = t
    · subst hxt
      simpa only [setTask_task_self, hend, hpend] using h.ended_iff x hx
    · rw [hsame x hxt]
      exact h.ended_iff x hx

theorem Inv.input {pred t : Nat} {rest : List Event} (h : Inv P ρ (.input pred t :: rest)) :
    Inv P (step P ρ (.input pred t)).1 ((step P ρ (.input pred t)).2 ++ rest) := by
  obtain ⟨-, ht⟩ : pred < P.size ∧ t < P.size := h.events_wf _ List.mem_cons_self
  have hr := h.remaining_eq t ht
  simp only [List.countP_cons, Event.isInputTo_input, beq_self_eq_true, if_true] at hr
  have hnb : (ρ.task t).begun = false := by
    cases hb : (ρ.task t).begun
    · rfl
    · have := h.remaining_of_begun t hb
      omega
  simp only [step]
  rw [if_pos ⟨ht, by omega⟩]
  split
  · refine Inv.beginFires [.input pred t] h ht hnb ?_ (by simp) (by simp) (by simp_all)
      rfl rfl rfl
    intro x
    by_cases hxt : x = t
    · subst hxt
      simp only [List.countP_cons, List.countP_nil, Event.isInputTo_input, beq_self_eq_true,
        ↓reduceIte]
      omega
    · simp [Ne.symm hxt, hxt]
  · exact h.beginWaits ht (by simp) ‹_› rfl rfl rfl

end Step

section Queue

theorem enqueue_perm (priority : UnitId → Double) (u : UnitId) (q : List UnitId) :
    (enqueue priority u q).Perm (u :: q) := by
  induction q with
  | nil => exact List.Perm.refl _
  | cons v rest ih =>
    simp only [enqueue]
    split
    · exact List.Perm.refl _
    · exact (ih.cons v).trans (List.Perm.swap u v rest)

theorem count_enqueue (priority : UnitId → Double) (u v : UnitId) (q : List UnitId) :
    (enqueue priority u q).count v = q.count v + if u = v then 1 else 0 := by
  rw [(enqueue_perm priority u q).count_eq, List.count_cons]
  by_cases h : u = v
  · subst h
    simp
  · simp [h]

end Queue

section UnitFrame

variable {P} {ρ : State} {u v : UnitId} {us : UnitState}

@[simp] theorem setUnit_unit_self : (ρ.setUnit u us).unit u = us := Function.update_self ..

@[simp] theorem setUnit_unit_of_ne (h : v ≠ u) : (ρ.setUnit u us).unit v = ρ.unit v :=
  Function.update_of_ne h ..

@[simp] theorem setUnit_task : (ρ.setUnit u us).task = ρ.task := rfl

@[simp] theorem setUnit_queue : (ρ.setUnit u us).queue = ρ.queue := rfl

@[simp] theorem setUnit_free : (ρ.setUnit u us).free = ρ.free := rfl

@[simp] theorem setUnit_log : (ρ.setUnit u us).log = ρ.log := rfl

theorem processor_setUnit (h : us.processor = (ρ.unit u).processor) (w : UnitId) :
    ((ρ.setUnit u us).unit w).processor = (ρ.unit w).processor := by
  by_cases hw : w = u
  · subst hw
    simpa using h
  · simp [hw]

theorem openDeps_of_task_eq {ρ' : State} (h : ρ'.task = ρ.task) (x : Nat) :
    openDeps P ρ' x = openDeps P ρ x := by
  simp only [openDeps, h]

theorem unsent_of_eq {ρ' : State} (h : ρ'.task = ρ.task)
    (hp : ∀ w, (ρ'.unit w).processor = (ρ.unit w).processor) (x : Nat) :
    unsent P ρ' x = unsent P ρ x := by
  simp only [unsent, unplaced, hp, h]

end UnitFrame

section Step

variable {P} {ρ : State}

/-- A release moves its unit into the queue. -/
theorem Inv.release {t k : Nat} {rest : List Event} (h : Inv P ρ (.release t k :: rest)) :
    Inv P (step P ρ (.release t k)).1 ((step P ρ (.release t k)).2 ++ rest) := by
  obtain ⟨ht, hk⟩ : t < P.size ∧ k < P.unitCount t := h.events_wf _ List.mem_cons_self
  have hw := h.whereabouts_eq ⟨t, k⟩
  have hnp : (ρ.unit ⟨t, k⟩).processor.isSome = false := by
    cases hp : (ρ.unit ⟨t, k⟩).processor.isSome
    · rfl
    · simp only [whereabouts, List.countP_cons, Event.isReleaseOf_release, beq_self_eq_true,
        Bool.and_self, ↓reduceIte, hp] at hw
      split at hw <;> omega
  have hnl : ∀ pl ∈ ρ.log, pl.id ≠ ⟨t, k⟩ := by
    intro pl hpl hid
    have := h.log_unit pl hpl
    rw [hid] at this
    rw [this] at hnp
    simp at hnp
  have htask : (step P ρ (.release t k)).1.task = ρ.task := rfl
  have hproc : ∀ w, ((step P ρ (.release t k)).1.unit w).processor = (ρ.unit w).processor :=
    processor_setUnit (ρ := ρ) rfl
  have hunit : ∀ w, w ≠ ⟨t, k⟩ → (step P ρ (.release t k)).1.unit w = ρ.unit w :=
    fun w hw => setUnit_unit_of_ne (ρ := ρ) hw
  have hqueue : (step P ρ (.release t k)).1.queue = enqueue P.priority ⟨t, k⟩ ρ.queue := rfl
  have hnext : (step P ρ (.release t k)).2 = [] := rfl
  rw [hnext, List.nil_append]
  refine ⟨h.wf_rest, ?_, ?_, ?_, ?_, ?_, ?_, h.free_eq, h.taken_lt, h.taken_nodup, ?_, ?_,
    h.log_nodup, ?_⟩
  · intro x hx
    rw [htask, openDeps_of_task_eq htask, h.remaining_eq x hx]
    simp
  · rw [htask]
    exact h.remaining_of_begun
  · rw [htask]
    exact h.begun_of_remaining
  · intro u
    rw [htask, ← h.whereabouts_eq u]
    simp only [whereabouts, List.countP_cons, Event.isReleaseOf_release, hqueue, count_enqueue,
      hproc]
    by_cases hu : u = ⟨t, k⟩
    · subst hu
      simp
      omega
    · have : ¬(t = u.task ∧ k = u.subtask) := fun h' => hu (by cases u; simp_all)
      simp only [Bool.and_eq_true, beq_iff_eq, this, if_false, Nat.add_zero, Ne.symm hu]
  · intro x hx
    rw [htask, unsent_of_eq htask hproc, h.pending_eq x hx]
    simp
  · rw [htask]
    exact h.ended_iff
  · intro pl hpl
    rw [hunit _ (hnl pl hpl)]
    exact h.log_unit pl hpl
  · intro u hu
    rw [hproc] at hu
    exact h.placed_mem u hu
  · intro t' k' hk'
    rw [hproc]
    exact h.done_placed t' k' (List.mem_cons_of_mem _ hk')

section EndInput

variable {ev : Event} {t : Nat} {rest : List Event} {ts : TaskState}

/-- The facts about a delivery `ev` into the end of task `t` that the end's bookkeeping uses. -/
structure EndInput (P : Problem) (ev : Event) (t : Nat) : Prop where
  lt : t < P.size
  counted : ev.isEndInputOf t = true
  not_input : ∀ x, ev.isInputTo x = false
  not_release : ∀ u, ev.isReleaseOf u = false
  only : ∀ x, x ≠ t → ev.isEndInputOf x = false

theorem EndInput.countP_isInputTo (he : EndInput P ev t) (x : Nat) :
    (ev :: rest).countP (·.isInputTo x) = rest.countP (·.isInputTo x) := by
  simp [he.not_input]

theorem EndInput.countP_isReleaseOf (he : EndInput P ev t) (u : UnitId) :
    (ev :: rest).countP (·.isReleaseOf u) = rest.countP (·.isReleaseOf u) := by
  simp [he.not_release]

theorem EndInput.pending_pos (he : EndInput P ev t) (h : Inv P ρ (ev :: rest)) :
    (ρ.task t).pending = unsent P ρ t + rest.countP (·.isEndInputOf t) + 1 := by
  have hp := h.pending_eq t he.lt
  simp only [List.countP_cons, he.counted, if_true] at hp
  omega

theorem EndInput.pending_eq_of_ne (he : EndInput P ev t) (h : Inv P ρ (ev :: rest)) {x : Nat}
    (hx : x < P.size) (hxt : x ≠ t) :
    (ρ.task x).pending = unsent P ρ x + rest.countP (·.isEndInputOf x) := by
  rw [h.pending_eq x hx]
  simp [he.only x hxt]

/-- The last input of an end: it fires, and its successors' begins get their inputs. -/
theorem Inv.endFires (hg : P.graph.WellFormed) (he : EndInput P ev t) (h : Inv P ρ (ev :: rest))
    (hrem : ts.remaining = (ρ.task t).remaining) (hbeg : ts.begun = (ρ.task t).begun)
    (hpend : ts.pending = 0) (hend : ts.ended = true) (hlast : (ρ.task t).pending = 1) :
    Inv P (ρ.setTask t ts) (P.endEvents t ++ rest) := by
  have hp := he.pending_pos h
  have hne : (ρ.task t).ended = false := by
    cases hE : (ρ.task t).ended
    · rfl
    · have := (h.ended_iff t he.lt).1 hE
      omega
  refine ⟨?_, ?_, ?_, ?_, ?_, ?_, ?_, h.free_eq, h.taken_lt, h.taken_nodup, h.log_unit,
    h.placed_mem, h.log_nodup, ?_⟩
  · intro e hmem
    rcases List.mem_append.1 hmem with hmem | hmem
    · exact wf_endEvents hg he.lt e hmem
    · exact h.wf_rest e hmem
  · intro x hx
    have := openDeps_setTask_ended (ρ := ρ) he.lt hne hend x
    rw [remaining_setTask hrem, h.remaining_eq x hx, List.countP_append,
      countP_isInputTo_endEvents, he.countP_isInputTo]
    omega
  · intro x hx
    rw [begun_setTask hbeg] at hx
    rw [remaining_setTask hrem]
    exact h.remaining_of_begun x hx
  · intro x hx hr hd
    rw [remaining_setTask hrem] at hr
    rw [begun_setTask hbeg]
    exact h.begun_of_remaining x hx hr hd
  · intro u
    rw [begun_setTask hbeg, whereabouts_setTask, ← h.whereabouts_eq u]
    simp only [whereabouts, List.countP_append, countP_isReleaseOf_endEvents,
      he.countP_isReleaseOf, Nat.zero_add]
  · intro x hx
    rw [unsent_setTask hbeg, List.countP_append, countP_isEndInputOf_endEvents, Nat.zero_add]
    by_cases hxt : x = t
    · subst hxt
      rw [setTask_task_self]
      omega
    · rw [setTask_task_of_ne hxt]
      exact he.pending_eq_of_ne h hx hxt
  · intro x hx
    by_cases hxt : x = t
    · subst hxt
      rw [setTask_task_self, hend, hpend]
      simp
    · rw [setTask_task_of_ne hxt]
      exact h.ended_iff x hx
  · intro t' k hk
    rcases List.mem_append.1 hk with hk | hk
    · exact absurd hk (not_done_mem_endEvents _ _ _)
    · exact h.done_placed t' k (List.mem_cons_of_mem _ hk)

/-- An input of an end that is not its last: the end waits for one input less. -/
theorem Inv.endWaits (he : EndInput P ev t) (h : Inv P ρ (ev :: rest))
    (hrem : ts.remaining = (ρ.task t).remaining) (hbeg : ts.begun = (ρ.task t).begun)
    (hpend : ts.pending = (ρ.task t).pending - 1) (hend : ts.ended = (ρ.task t).ended)
    (hmore : ts.pending ≠ 0) :
    Inv P (ρ.setTask t ts) rest := by
  have hp := he.pending_pos h
  refine ⟨h.wf_rest, ?_, ?_, ?_, ?_, ?_, ?_, h.free_eq, h.taken_lt, h.taken_nodup, h.log_unit,
    h.placed_mem, h.log_nodup, fun t' k hk => h.done_placed t' k (List.mem_cons_of_mem _ hk)⟩
  · intro x hx
    rw [remaining_setTask hrem, openDeps_setTask hend, h.remaining_eq x hx, he.countP_isInputTo]
  · intro x hx
    rw [begun_setTask hbeg] at hx
    rw [remaining_setTask hrem]
    exact h.remaining_of_begun x hx
  · intro x hx hr hd
    rw [remaining_setTask hrem] at hr
    rw [begun_setTask hbeg]
    exact h.begun_of_remaining x hx hr hd
  · intro u
    rw [begun_setTask hbeg, whereabouts_setTask, ← h.whereabouts_eq u]
    simp only [whereabouts, he.countP_isReleaseOf]
  · intro x hx
    rw [unsent_setTask hbeg]
    by_cases hxt : x = t
    · subst hxt
      rw [setTask_task_self]
      omega
    · rw [setTask_task_of_ne hxt]
      exact he.pending_eq_of_ne h hx hxt
  · intro x hx
    by_cases hxt : x = t
    · subst hxt
      rw [setTask_task_self, hend, h.ended_iff x hx]
      omega
    · rw [setTask_task_of_ne hxt]
      exact h.ended_iff x hx

theorem Inv.finishInput (hg : P.graph.WellFormed) (he : EndInput P ev t)
    (h : Inv P ρ (ev :: rest)) (f : Double) :
    Inv P (finishInput P ρ t f).1 ((finishInput P ρ t f).2 ++ rest) := by
  have hp := he.pending_pos h
  unfold Direct.finishInput
  dsimp only
  rw [if_pos ⟨he.lt, by omega⟩]
  split
  · exact h.endFires hg he rfl rfl (by simp_all) rfl (by omega)
  · exact h.endWaits he rfl rfl rfl rfl ‹_›

end EndInput

theorem Inv.step (hg : P.graph.WellFormed) {ev : Event} {rest : List Event}
    (h : Inv P ρ (ev :: rest)) : Inv P (step P ρ ev).1 ((step P ρ ev).2 ++ rest) := by
  have hwf := h.events_wf ev List.mem_cons_self
  cases ev with
  | input pred t => exact h.input
  | release t k => exact h.release
  | skip t =>
    exact h.finishInput hg ⟨hwf.1, by simp, by simp, by simp, fun x hx => by simp [Ne.symm hx]⟩ _
  | done t k =>
    exact h.finishInput hg ⟨hwf.1, by simp, by simp, by simp, fun x hx => by simp [Ne.symm hx]⟩ _

theorem Inv.drain (hg : P.graph.WellFormed) {es : List Event} (h : Inv P ρ es) :
    Inv P (drain P ρ es) [] := by
  induction ρ, es using Direct.drain.induct P with
  | case1 ρ =>
    rw [Direct.drain]
    exact h
  | case2 ρ ev rest ih =>
    rw [Direct.drain]
    exact ih (h.step hg)

theorem Inv.startFires (h : Inv P ρ []) {t : Nat} (ht : t < P.size)
    (hnb : (ρ.task t).begun = false) (hr : (ρ.task t).remaining = 0) :
    Inv P (ρ.setTask t { ρ.task t with
      beginTime := Double.maxNum (ρ.task t).beginTime P.release, begun := true })
      (P.beginEvents t) := by
  rw [← List.append_nil (P.beginEvents t)]
  exact Inv.beginFires [] h ht hnb (fun x => by split <;> simp [hr]) (by simp) (by simp) hr rfl
    rfl rfl

theorem Inv.start (hg : P.graph.WellFormed) (h : Inv P ρ []) (t : Nat) :
    Inv P (start P ρ t) [] := by
  unfold Direct.start
  dsimp only
  split
  · rename_i hs
    obtain ⟨ht, hnb, hr⟩ := hs
    exact Inv.drain hg (h.startFires ht hnb hr)
  · exact h

end Step

section Free

variable {P}

theorem better_isSome (b : Option Free) (f : Free) : (better b f).isSome := by
  unfold better
  split
  · rfl
  · split <;> rfl

theorem foldl_better_mem {f : Free} (l : List Free) (b : Option Free)
    (h : l.foldl better b = some f) : f ∈ l ∨ b = some f := by
  induction l generalizing b with
  | nil => exact .inr h
  | cons g l ih =>
    rcases ih _ h with h | h
    · exact .inl (List.mem_cons_of_mem _ h)
    · unfold better at h
      split at h
      · exact .inl (Option.some.inj h ▸ List.mem_cons_self)
      · split at h
        · exact .inl (Option.some.inj h ▸ List.mem_cons_self)
        · exact .inr h

theorem pick_mem {l : List Free} {f : Free} (h : pick l = some f) : f ∈ l :=
  (foldl_better_mem l none h).resolve_right nofun

theorem pick_isSome {l : List Free} (h : l ≠ []) : (pick l).isSome := by
  obtain ⟨g, l, rfl⟩ := List.exists_cons_of_ne_nil h
  clear h
  unfold pick
  rw [List.foldl_cons]
  generalize hb : better none g = b
  have hb' : b.isSome := hb ▸ better_isSome none g
  clear hb
  induction l generalizing b with
  | nil => exact hb'
  | cons g' l ih => exact ih _ (better_isSome b g')

@[simp] theorem Problem.moment_stamp (log : List Placement) (σ : Nat) :
    (P.moment log σ).stamp = σ := by
  unfold Problem.moment
  split
  · rfl
  · split <;> rfl

theorem Problem.moment_append_of_lt {log : List Placement} {σ : Nat}
    (hσ : σ < P.processors + log.length) (l : List Placement) :
    P.moment (log ++ l) σ = P.moment log σ := by
  unfold Problem.moment
  split
  · rfl
  · rw [List.getElem?_append_left (by omega)]

theorem Problem.mem_freeMoments {log : List Placement} {f : Free} :
    f ∈ P.freeMoments log ↔
      f.stamp < P.processors + log.length ∧ f.stamp ∉ log.map Placement.taken ∧
        P.moment log f.stamp = f := by
  simp only [Problem.freeMoments, List.mem_map, List.mem_filter, List.mem_range,
    decide_eq_true_eq]
  constructor
  · rintro ⟨σ, ⟨hσ, hn⟩, rfl⟩
    simp [hσ, hn]
  · rintro ⟨hσ, hn, he⟩
    exact ⟨_, ⟨hσ, hn⟩, he⟩

/-- A placement takes one free moment and gives the next one, with the next stamp. -/
theorem Problem.freeMoments_append {log : List Placement} {pl : Placement}
    (hlog : ∀ q ∈ log, q.taken < P.processors + log.length)
    (hlt : pl.taken < P.processors + log.length) :
    P.freeMoments (log ++ [pl]) =
      (P.freeMoments log).filter (·.stamp ≠ pl.taken) ++
        [⟨pl.processor, pl.finish, P.processors + log.length⟩] := by
  unfold Problem.freeMoments
  rw [List.length_append, List.length_singleton, ← Nat.add_assoc, List.range_succ,
    List.filter_append, List.map_append, List.filter_map]
  congr 1
  · rw [List.filter_filter]
    have hl : (List.range (P.processors + log.length)).filter
          (fun σ => decide (σ ∉ (log ++ [pl]).map Placement.taken)) =
        (List.range (P.processors + log.length)).filter (fun σ =>
          (decide ((P.moment log σ).stamp ≠ pl.taken) && decide (σ ∉ log.map Placement.taken))) := by
      refine List.filter_congr fun σ _ => ?_
      simp [or_comm]
    rw [hl]
    refine List.map_congr_left fun σ hσ => ?_
    exact P.moment_append_of_lt (List.mem_range.1 (List.mem_filter.1 hσ).1) _
  · have hn : P.processors + log.length ∉ (log ++ [pl]).map Placement.taken := by
      simp only [List.map_append, List.map_cons, List.map_nil, List.mem_append, List.mem_map,
        List.mem_singleton, not_or, not_exists, not_and]
      exact ⟨fun q hq he => by have := hlog q hq; omega, by omega⟩
    rw [List.filter_singleton, decide_eq_true hn, cond_true, List.map_singleton]
    simp only [Problem.moment]
    rw [if_neg (by omega), Nat.add_sub_cancel_left, List.getElem?_concat_length]

theorem Problem.freeMoments_ne_nil (hp : 0 < P.processors) (log : List Placement) :
    P.freeMoments log ≠ [] := by
  intro h
  have hsub : List.range (P.processors + log.length) ⊆ log.map Placement.taken := by
    intro σ hσ
    by_contra hn
    have : P.moment log σ ∈ P.freeMoments log :=
      P.mem_freeMoments.2 ⟨by simpa using hσ, by simpa using hn, by simp⟩
    simp [h] at this
  have := (List.subperm_of_subset List.nodup_range hsub).length_le
  simp at this
  omega

end Free

section Assign

variable {P} {ρ : State}

theorem countP_range_eq_succ {m k : Nat} (hk : k < m) {q q' : Nat → Bool} (hq : q k = true)
    (hq' : q' k = false) (h : ∀ j, j ≠ k → q j = q' j) :
    (List.range m).countP q = (List.range m).countP q' + 1 := by
  induction m with
  | zero => omega
  | succ m ih =>
    rw [List.range_succ, List.countP_append, List.countP_append]
    by_cases hkm : k = m
    · subst hkm
      have heq : (List.range k).countP q = (List.range k).countP q' :=
        List.countP_congr fun j hj => by rw [h j (Nat.ne_of_lt (List.mem_range.1 hj))]
      simp [heq, hq, hq']
    · rw [ih (by omega)]
      simp [h m (Ne.symm hkm)]
      omega

theorem assign_spec (ρ : State) (u : UnitId) (f : Free) :
    ∃ pl : Placement, (assign P ρ u f).log = ρ.log ++ [pl] ∧ pl.id = u ∧
      pl.processor = f.processor ∧ pl.taken = f.stamp ∧
      (assign P ρ u f).unit = Function.update ρ.unit u ⟨⟨pl.ready, pl.finish⟩, some pl.processor⟩ ∧
      (assign P ρ u f).free = ρ.free.filter (·.stamp ≠ f.stamp) ++
        [⟨pl.processor, pl.finish, P.processors + ρ.log.length⟩] ∧
      (assign P ρ u f).task = ρ.task ∧ (assign P ρ u f).queue = ρ.queue :=
  ⟨_, rfl, rfl, rfl, rfl, rfl, rfl, rfl, rfl⟩

theorem Inv.queue_head (h : Inv P ρ []) {u : UnitId} {rest : List UnitId}
    (hq : ρ.queue = u :: rest) :
    (P.Valid u ∧ (ρ.task u.task).begun = true) ∧ rest.count u = 0 ∧
      (ρ.unit u).processor = none ∧ ∀ pl ∈ ρ.log, pl.id ≠ u := by
  have hw := h.whereabouts_eq u
  simp only [whereabouts, List.countP_nil, hq, List.count_cons_self] at hw
  have hvalid : P.Valid u ∧ (ρ.task u.task).begun = true := by
    by_contra hc
    rw [if_neg hc] at hw
    omega
  rw [if_pos hvalid] at hw
  have hrest : rest.count u = 0 := by split at hw <;> omega
  have hnp : (ρ.unit u).processor = none := by
    cases hp : (ρ.unit u).processor
    · rfl
    · simp [hp] at hw
  refine ⟨hvalid, hrest, hnp, fun pl hpl hid => ?_⟩
  have := h.log_unit pl hpl
  rw [hid] at this
  simp [this] at hnp

theorem Inv.taken_lt_length {es : List Event} (h : Inv P ρ es) :
    ∀ q ∈ ρ.log, q.taken < P.processors + ρ.log.length := by
  intro q hq
  obtain ⟨j, hj, rfl⟩ := List.getElem_of_mem hq
  have := h.taken_lt j hj
  omega

theorem Inv.assign (h : Inv P ρ []) {u : UnitId} {rest : List UnitId} (hq : ρ.queue = u :: rest)
    {f : Free} (hf : pick ρ.free = some f) :
    Inv P (assign P { ρ with queue := rest } u f) [.done u.task u.subtask] := by
  obtain ⟨hvalid, hrest, hnp, hnl⟩ := h.queue_head hq
  obtain ⟨hσ, hσn, hσm⟩ := P.mem_freeMoments.1 (h.free_eq ▸ pick_mem hf)
  have hlog := h.taken_lt_length
  obtain ⟨pl, hlog', hid, hproc, htaken, hunit, hfree, htask, hqueue⟩ :=
    assign_spec (P := P) { ρ with queue := rest } u f
  generalize hρ' : Direct.assign P { ρ with queue := rest } u f = ρ'
  rw [hρ'] at hlog' hunit hfree htask hqueue
  simp only at hlog' hunit hfree htask hqueue
  have hunit_ne : ∀ w, w ≠ u → ρ'.unit w = ρ.unit w :=
    fun w hw => by rw [hunit, Function.update_of_ne hw]
  have hunit_self : ρ'.unit u =
      ⟨⟨pl.ready, pl.finish⟩, some pl.processor⟩ := by
    rw [hunit, Function.update_self]
  have hsome : ∀ w, (ρ'.unit w).processor.isSome =
      ((ρ.unit w).processor.isSome || decide (w = u)) := by
    intro w
    by_cases hw : w = u
    · subst hw
      simp [hunit_self]
    · simp [hunit_ne w hw, hw]
  refine ⟨?_, ?_, ?_, ?_, ?_, ?_, ?_, ?_, ?_, ?_, ?_, ?_, ?_, ?_⟩
  · simp only [List.mem_singleton, forall_eq]
    exact hvalid.1
  · intro x hx
    rw [htask, openDeps_of_task_eq htask, h.remaining_eq x hx]
    simp
  · rw [htask]
    exact h.remaining_of_begun
  · rw [htask]
    exact h.begun_of_remaining
  · intro w
    rw [htask]
    by_cases hw : w = u
    · subst hw
      simp [whereabouts, hqueue, hrest, hunit_self, hvalid]
    · rw [← h.whereabouts_eq w]
      simp [whereabouts, hqueue, hq, hunit_ne w hw, Ne.symm hw]
  · intro x hx
    rw [htask, h.pending_eq x hx]
    by_cases hxu : x = u.task
    · subst hxu
      have hc : P.unitCount u.task ≠ 0 := by have := hvalid.1.2; omega
      have hun : unplaced P ρ u.task =
          unplaced P ρ' u.task + 1 := by
        refine countP_range_eq_succ hvalid.1.2 (by simp [hnp]) (by simp [hunit_self]) ?_
        intro j hj
        rw [hunit_ne _ fun he => hj (by rw [← he])]
      simp [unsent, hc, hun]
    · have hun : unplaced P ρ' x = unplaced P ρ x := by
        refine List.countP_congr fun j _ => ?_
        rw [hunit_ne _ fun he => hxu (by rw [← he])]
      simp [unsent, hun, htask, Ne.symm hxu]
  · rw [htask]
    exact h.ended_iff
  · rw [hfree, hlog', P.freeMoments_append hlog (htaken ▸ hσ), h.free_eq, htaken, hproc]
  · rw [hlog']
    intro j hj
    by_cases hjl : j < ρ.log.length
    · rw [List.getElem_append_left hjl]
      exact h.taken_lt j hjl
    · have hj' : j = ρ.log.length := by simp at hj; omega
      subst hj'
      simp [htaken, hσ]
  · rw [hlog', List.map_append, List.nodup_append]
    refine ⟨h.taken_nodup, by simp, ?_⟩
    simp only [List.map_cons, List.map_nil, List.mem_singleton, htaken]
    intro a ha b hb hab
    rw [hab, hb] at ha
    exact hσn ha
  · intro q hq'
    rw [hlog'] at hq'
    rcases List.mem_append.1 hq' with hq' | hq'
    · rw [hunit_ne _ (hnl q hq')]
      exact h.log_unit q hq'
    · rw [List.mem_singleton.1 hq', hid, hunit_self]
  · intro w hw
    rw [hlog', List.map_append, List.mem_append]
    rw [hsome] at hw
    by_cases hwu : w = u
    · subst hwu
      simp [hid]
    · simp only [hwu, decide_false, Bool.or_false] at hw
      exact .inl (h.placed_mem w hw)
  · rw [hlog', List.map_append, List.nodup_append]
    refine ⟨h.log_nodup, by simp, ?_⟩
    simp only [List.map_cons, List.map_nil, List.mem_singleton, hid]
    intro a ha b hb
    rw [hb]
    obtain ⟨q, hq', rfl⟩ := List.mem_map.1 ha
    exact hnl q hq'
  · intro t k hk
    rw [List.mem_singleton, Event.done.injEq] at hk
    have : (⟨t, k⟩ : UnitId) = u := by rw [hk.1, hk.2]
    rw [this, hunit_self]
    rfl

theorem Inv.dispatch (hg : P.graph.WellFormed) (h : Inv P ρ []) : Inv P (dispatch P ρ) [] := by
  induction ρ using Direct.dispatch.induct P with
  | case1 ρ hq =>
    rw [dispatch_of_queue_nil hq]
    exact h
  | case2 ρ u rest hq hf =>
    rw [dispatch_of_pick_none hf]
    exact h
  | case3 ρ u rest hq f hf ih =>
    rw [dispatch_of_pick_some hq hf]
    exact ih ((h.assign hq hf).drain hg)

end Assign

section Initial

variable {P}

theorem openDeps_initial (t : Nat) : openDeps P (initial P) t = P.inDegree t := by
  simp [openDeps, initial, Problem.inDegree]

theorem unsent_initial (t : Nat) : unsent P (initial P) t = max (P.unitCount t) 1 := by
  unfold unsent unplaced
  split
  · simp [initial, *]
  · simp only [initial, Option.isNone_none, List.countP_true, List.length_range]
    omega

theorem Problem.freeMoments_nil : P.freeMoments [] = (initial P).free := by
  simp only [Problem.freeMoments, List.length_nil, Nat.add_zero, List.map_nil, List.not_mem_nil,
    not_false_eq_true, decide_true, List.filter_true, initial]
  refine List.map_congr_left fun σ hσ => ?_
  simp [Problem.moment, List.mem_range.1 hσ]

theorem Inv.initial : Inv P (initial P) [] where
  events_wf := nofun
  remaining_eq t _ := by rw [openDeps_initial, List.countP_nil, Nat.add_zero]; rfl
  remaining_of_begun t h := by simp [Direct.initial] at h
  begun_of_remaining t _ h hd := by simp [Direct.initial] at h; omega
  whereabouts_eq u := by simp [whereabouts, Direct.initial]
  pending_eq t _ := by rw [unsent_initial, List.countP_nil, Nat.add_zero]; rfl
  ended_iff t _ := by simp [Direct.initial]
  free_eq := P.freeMoments_nil.symm
  taken_lt j h := absurd h (by simp [Direct.initial])
  taken_nodup := List.nodup_nil
  log_unit pl h := absurd h (by simp [Direct.initial])
  placed_mem u h := by simp [Direct.initial] at h
  log_nodup := List.nodup_nil
  done_placed t k h := absurd h (by simp)

theorem Inv.foldl_start (hg : P.graph.WellFormed) {ρ : State} (h : Inv P ρ []) (linked : List Nat) :
    Inv P (linked.foldl (Direct.start P) ρ) [] := by
  induction linked generalizing ρ with
  | nil => exact h
  | cons t rest ih => exact ih (h.start hg t)

theorem Inv.schedule (hg : P.graph.WellFormed) (linked : List Nat) :
    Inv P (schedule P linked) [] :=
  ((Inv.initial).foldl_start hg linked).dispatch hg

end Initial

end Direct

end ListScheduling
