import ListScheduling.Proofs.Direct.Invariant

/-!
The tasks a run fires.
-/
namespace ListScheduling

/-- A graph without cycles: its tasks can be ranked so that every recorded dependency goes from
a lower rank to a higher one. -/
def TaskGraph.Acyclic (g : TaskGraph) : Prop :=
  ∃ rank : Nat → Nat, ∀ s < g.size, ∀ t ∈ g.successors s, rank s < rank t

namespace Direct

namespace Problem

variable (P : Problem) (L : List Nat)

/-- The tasks that fire when the tasks `L` are linked from the root: the least set that holds
them and every task with an input all of whose predecessors it holds. -/
inductive Fires : Nat → Prop
  | linked {t : Nat} : t ∈ L → Fires t
  | joined {t : Nat} : t < P.size → 0 < P.inDegree t →
      (∀ s < P.size, t ∈ P.graph.successors s → Fires s) → Fires t

/-- One round of firing: the linked tasks, and every task with an input all of whose
predecessors fired in the round before. -/
def fireRound (fired : Nat → Bool) (t : Nat) : Bool :=
  decide (t ∈ L) || (decide (t < P.size) && decide (0 < P.inDegree t) &&
    (List.range P.size).all fun s => decide (t ∉ P.graph.successors s) || fired s)

/-- The tasks fired after `n` rounds from none. -/
def firedAfter (n : Nat) : Nat → Bool := (P.fireRound L)^[n] fun _ => false

/-- The firing tasks: one round more than there are tasks leaves nothing to add. -/
def firing : Nat → Bool := P.firedAfter L (P.size + 1)

theorem firedAfter_succ (n : Nat) :
    P.firedAfter L (n + 1) = P.fireRound L (P.firedAfter L n) :=
  Function.iterate_succ_apply' ..

theorem fireRound_congr {f g : Nat → Bool} (h : ∀ s < P.size, f s = g s) :
    P.fireRound L f = P.fireRound L g := by
  funext t
  have hall : ((List.range P.size).all fun s => decide (t ∉ P.graph.successors s) || f s) =
      (List.range P.size).all fun s => decide (t ∉ P.graph.successors s) || g s := by
    refine Bool.eq_iff_iff.2 ?_
    simp only [List.all_eq_true, List.mem_range]
    exact forall₂_congr fun s hs => by rw [h s hs]
  simp only [fireRound, hall]

theorem fireRound_mono {f g : Nat → Bool} (h : ∀ s < P.size, f s = true → g s = true) {t : Nat}
    (ht : P.fireRound L f t = true) : P.fireRound L g t = true := by
  simp only [fireRound, Bool.or_eq_true, Bool.and_eq_true, decide_eq_true_eq, List.all_eq_true,
    List.mem_range] at ht ⊢
  rcases ht with hl | ⟨hd, hall⟩
  · exact .inl hl
  · exact .inr ⟨hd, fun s hs => (hall s hs).imp id (h s hs)⟩

theorem firedAfter_mono (n : Nat) {t : Nat} (h : P.firedAfter L n t = true) :
    P.firedAfter L (n + 1) t = true := by
  induction n generalizing t with
  | zero => exact absurd h (by simp [firedAfter])
  | succ n ih =>
    rw [firedAfter_succ] at h ⊢
    exact P.fireRound_mono L (fun _ _ hs => ih hs) h

/-- Some round before the last fires nothing new: until then each round fires one more task. -/
theorem exists_round_stable :
    ∃ n ≤ P.size, ∀ s < P.size, P.firedAfter L (n + 1) s = P.firedAfter L n s := by
  by_contra hne
  push Not at hne
  have hcard : ∀ n ≤ P.size + 1,
      n ≤ ((Finset.range P.size).filter fun s => P.firedAfter L n s).card := by
    intro n
    induction n with
    | zero => exact fun _ => Nat.zero_le _
    | succ n ih =>
      intro hn
      obtain ⟨s, hs, hchange⟩ := hne n (by omega)
      have hnew : P.firedAfter L n s = false ∧ P.firedAfter L (n + 1) s = true := by
        cases h₀ : P.firedAfter L n s
        · cases h₁ : P.firedAfter L (n + 1) s
          · rw [h₀, h₁] at hchange
            exact absurd rfl hchange
          · exact ⟨rfl, rfl⟩
        · rw [h₀, P.firedAfter_mono L n h₀] at hchange
          exact absurd rfl hchange
      have hsub : ((Finset.range P.size).filter fun s => P.firedAfter L n s) ⊂
          (Finset.range P.size).filter fun s => P.firedAfter L (n + 1) s := by
        refine (Finset.ssubset_iff_of_subset fun x hx => ?_).2 ⟨s, ?_, ?_⟩
        · simp only [Finset.mem_filter] at hx ⊢
          exact ⟨hx.1, P.firedAfter_mono L n hx.2⟩
        · simp [Finset.mem_filter, hs, hnew.2]
        · simp [Finset.mem_filter, hnew.1]
      exact Nat.lt_of_le_of_lt (ih (by omega)) (Finset.card_lt_card hsub)
  have hle := Finset.card_filter_le (Finset.range P.size) fun s => P.firedAfter L (P.size + 1) s
  have := hcard (P.size + 1) le_rfl
  rw [Finset.card_range] at hle
  omega

theorem firedAfter_stable {n : Nat}
    (h : ∀ s < P.size, P.firedAfter L (n + 1) s = P.firedAfter L n s) (m : Nat) :
    P.firedAfter L (n + 1 + m) = P.firedAfter L (n + 1) := by
  induction m with
  | zero => rfl
  | succ m ih =>
    rw [← Nat.add_assoc, firedAfter_succ, ih, P.fireRound_congr L h, ← firedAfter_succ]

theorem fireRound_firing : P.fireRound L (P.firing L) = P.firing L := by
  obtain ⟨n, hn, h⟩ := P.exists_round_stable L
  have h₁ := P.firedAfter_stable L h (P.size - n)
  have h₂ := P.firedAfter_stable L h (P.size + 1 - n)
  rw [show n + 1 + (P.size - n) = P.size + 1 by omega] at h₁
  rw [show n + 1 + (P.size + 1 - n) = P.size + 1 + 1 by omega, firedAfter_succ] at h₂
  unfold firing
  rw [h₂, h₁]

theorem fires_of_firedAfter {n t : Nat} (h : P.firedAfter L n t = true) : P.Fires L t := by
  induction n generalizing t with
  | zero => exact absurd h (by simp [firedAfter])
  | succ n ih =>
    rw [firedAfter_succ] at h
    simp only [fireRound, Bool.or_eq_true, Bool.and_eq_true, decide_eq_true_eq, List.all_eq_true,
      List.mem_range] at h
    rcases h with hl | ⟨⟨ht, hd⟩, hall⟩
    · exact .linked hl
    · refine .joined ht hd fun s hs hts => ih ?_
      simpa [hts] using hall s hs

theorem firing_of_fires {t : Nat} (h : P.Fires L t) : P.firing L t = true := by
  induction h with
  | linked hl =>
    rw [← P.fireRound_firing L]
    simp [fireRound, hl]
  | @joined t ht hd _ ih =>
    rw [← P.fireRound_firing L]
    simp only [fireRound, Bool.or_eq_true, Bool.and_eq_true, decide_eq_true_eq, List.all_eq_true,
      List.mem_range]
    refine .inr ⟨⟨ht, hd⟩, fun s hs => ?_⟩
    by_cases hts : t ∈ P.graph.successors s
    · simp [hts, ih s hs hts]
    · simp [hts]

theorem firing_iff {t : Nat} : P.firing L t = true ↔ P.Fires L t :=
  ⟨P.fires_of_firedAfter L, P.firing_of_fires L⟩

instance (t : Nat) : Decidable (P.Fires L t) := decidable_of_iff _ (P.firing_iff L)

theorem inDegree_pos {s t : Nat} (hs : s < P.size) (h : t ∈ P.graph.successors s) :
    0 < P.inDegree t :=
  Nat.lt_of_lt_of_le (List.count_pos_iff.2 h)
    (Finset.single_le_sum (f := fun s => (P.graph.successors s).count t)
      (fun _ _ => Nat.zero_le _) (Finset.mem_range.2 hs))

theorem fires_entries_of_acyclic (ha : P.graph.Acyclic) {t : Nat} (ht : t < P.size) :
    P.Fires P.entries t := by
  obtain ⟨rank, hrank⟩ := ha
  induction hr : rank t using Nat.strong_induction_on generalizing t with
  | _ n ih =>
    by_cases hd : P.inDegree t = 0
    · exact .linked (List.mem_filter.2 ⟨List.mem_range.2 ht, decide_eq_true hd⟩)
    · refine .joined ht (Nat.pos_of_ne_zero hd) fun s hs hts => ?_
      exact ih (rank s) (hr ▸ hrank s hs t hts) hs rfl

end Problem

variable {P : Problem} {L : List Nat} {ρ : State} {es : List Event}

theorem openDeps_le_inDegree (ρ : State) (t : Nat) : openDeps P ρ t ≤ P.inDegree t :=
  Finset.sum_le_sum fun _ _ => by split <;> omega

theorem ended_of_openDeps {s t : Nat} (h : openDeps P ρ t = 0) (hs : s < P.size)
    (hst : t ∈ P.graph.successors s) : (ρ.task s).ended = true := by
  have hterm := (Finset.sum_eq_zero_iff.1 h) s (Finset.mem_range.2 hs)
  by_contra hn
  rw [if_neg hn] at hterm
  exact absurd hterm (Nat.pos_iff_ne_zero.1 (List.count_pos_iff.2 hst))

theorem input_not_mem_beginEvents (p x t : Nat) : Event.input p x ∉ P.beginEvents t := fun h =>
  absurd (countP_isInputTo_beginEvents (P := P) x t)
    (Nat.pos_iff_ne_zero.1 (List.countP_pos_iff.2 ⟨_, h, by simp⟩))

/-- The inputs a delivery causes go from a task to one of its recorded successors. -/
theorem successor_of_input_mem_step {ev : Event} {p x : Nat}
    (h : Event.input p x ∈ (step P ρ ev).2) : x ∈ P.graph.successors p := by
  have hfin : ∀ t f, Event.input p x ∈ (finishInput P ρ t f).2 → x ∈ P.graph.successors p := by
    intro t f hf
    unfold finishInput at hf
    dsimp only at hf
    split at hf
    · split at hf
      · obtain ⟨y, hy, he⟩ := List.mem_map.1 hf
        cases he
        exact hy
      · cases hf
    · cases hf
  cases ev with
  | input pred t =>
    simp only [step] at h
    split at h
    · split at h
      · exact absurd h (input_not_mem_beginEvents p x t)
      · cases h
    · cases h
  | release t k => cases h
  | skip t => exact hfin _ _ h
  | done t k => exact hfin _ _ h

/-! A delivery begins at most the task it is the last input of, and no task stops being begun. -/

theorem ended_setTask {t : Nat} {ts : TaskState} (h : ts.ended = (ρ.task t).ended) (x : Nat) :
    ((ρ.setTask t ts).task x).ended = (ρ.task x).ended := by
  by_cases hx : x = t
  · subst hx
    simpa using h
  · simp [hx]

theorem ended_step_input (pred t x : Nat) :
    ((step P ρ (.input pred t)).1.task x).ended = (ρ.task x).ended := by
  simp only [step]
  split
  · split <;> exact ended_setTask (by rfl) x
  · rfl

theorem begun_finishInput {t x : Nat} {f : Double} (h : (ρ.task x).begun = true) :
    ((finishInput P ρ t f).1.task x).begun = true := by
  unfold finishInput
  dsimp only
  split
  · split <;> exact (begun_setTask (by rfl) x).trans h
  · exact h

theorem begun_step (ev : Event) {x : Nat} (h : (ρ.task x).begun = true) :
    ((step P ρ ev).1.task x).begun = true := by
  cases ev with
  | input pred t =>
    simp only [step]
    split
    · split
      · by_cases hxt : x = t
        · subst hxt
          simp
        · simpa [hxt] using h
      · exact (begun_setTask (by rfl) x).trans h
    · exact h
  | release t k => exact h
  | skip t => exact begun_finishInput h
  | done t k => exact begun_finishInput h

theorem begun_step_of_not (ev : Event) {x : Nat} (hn : (ρ.task x).begun = false)
    (h : ((step P ρ ev).1.task x).begun = true) :
    ∃ pred, ev = .input pred x ∧ x < P.size ∧ ((step P ρ ev).1.task x).remaining = 0 := by
  have hfin : ∀ t f, ((finishInput P ρ t f).1.task x).begun = (ρ.task x).begun := by
    intro t f
    unfold finishInput
    dsimp only
    split
    · split <;> exact begun_setTask (by rfl) x
    · rfl
  cases ev with
  | input pred t =>
    by_cases hc : t < P.size ∧ 0 < (ρ.task t).remaining
    · by_cases hz : (ρ.task t).remaining - 1 = 0
      · have hxt : x = t := by
          by_contra hxt
          simp [step, hc, hz, hxt, hn] at h
        subst hxt
        exact ⟨pred, rfl, hc.1, by simp [step, hc, hz]⟩
      · simp [step, hc, hz, begun_setTask, hn] at h
    · simp [step, hc, hn] at h
  | release t k => simp [step, State.setUnit, hn] at h
  | skip t => simp [step, hfin, hn] at h
  | done t k => simp [step, hfin, hn] at h

/-! Firing along a run. -/

/-- What a run from the tasks `L` keeps: every task that began fires, and every input on its
way goes from a task to one of its recorded successors. -/
structure Within (P : Problem) (L : List Nat) (ρ : State) (es : List Event) : Prop where
  begun : ∀ t, (ρ.task t).begun = true → P.Fires L t
  inputs : ∀ p t, Event.input p t ∈ es → t ∈ P.graph.successors p

namespace Inv

theorem begun_of_ended (h : Inv P ρ es) {t : Nat} (ht : t < P.size)
    (he : (ρ.task t).ended = true) : (ρ.task t).begun = true := by
  have hu : unsent P ρ t = 0 := by
    have := h.pending_eq t ht
    have := (h.ended_iff t ht).1 he
    omega
  unfold unsent at hu
  split at hu
  · split at hu
    · assumption
    · cases hu
  · -- a unit of the task is placed, so the task began
    rename_i hc
    have hplaced : (ρ.unit ⟨t, 0⟩).processor.isSome = true := by
      have := List.countP_eq_zero.1 hu 0 (List.mem_range.2 (Nat.pos_of_ne_zero hc))
      exact Option.isSome_iff_ne_none.2 (by simpa using this)
    have hw := h.whereabouts_eq ⟨t, 0⟩
    simp only [whereabouts, hplaced, if_true] at hw
    by_contra hb
    rw [if_neg fun hv => hb hv.2] at hw
    omega

theorem begun_of_placed (h : Inv P ρ es) {u : UnitId} (hs : (ρ.unit u).processor.isSome = true) :
    (ρ.task u.task).begun = true := by
  have hw := h.whereabouts_eq u
  simp only [whereabouts, hs, if_true] at hw
  by_contra hb
  rw [if_neg fun hv => hb hv.2] at hw
  omega

theorem placed_of_begun (h : Inv P ρ []) (hq : ρ.queue = []) {u : UnitId} (hu : P.Valid u)
    (hb : (ρ.task u.task).begun = true) : (ρ.unit u).processor.isSome = true := by
  have hw := h.whereabouts_eq u
  rw [if_pos ⟨hu, hb⟩] at hw
  simp only [whereabouts, List.countP_nil, hq, List.count_nil, Nat.zero_add] at hw
  by_contra hn
  rw [if_neg hn] at hw
  cases hw

theorem ended_of_begun (h : Inv P ρ []) (hq : ρ.queue = []) {t : Nat} (ht : t < P.size)
    (hb : (ρ.task t).begun = true) : (ρ.task t).ended = true := by
  refine (h.ended_iff t ht).2 ?_
  rw [h.pending_eq t ht, List.countP_nil, Nat.add_zero]
  unfold unsent unplaced
  split
  · simp [hb]
  · refine List.countP_eq_zero.2 fun k hk => ?_
    have := h.placed_of_begun hq (u := ⟨t, k⟩) ⟨ht, List.mem_range.1 hk⟩ hb
    simpa [Option.isNone_iff_eq_none, Option.isSome_iff_ne_none] using this

theorem begun_of_preds (h : Inv P ρ []) {t : Nat} (ht : t < P.size) (hd : 0 < P.inDegree t)
    (hp : ∀ s < P.size, t ∈ P.graph.successors s → (ρ.task s).ended = true) :
    (ρ.task t).begun = true := by
  refine h.begun_of_remaining t ht ?_ hd
  rw [h.remaining_eq t ht, List.countP_nil, Nat.add_zero]
  refine Finset.sum_eq_zero fun s hs => ?_
  by_cases hts : t ∈ P.graph.successors s
  · rw [if_pos (hp s (Finset.mem_range.1 hs) hts)]
  · split
    · rfl
    · exact List.count_eq_zero.2 hts

end Inv

namespace Within

theorem step (hg : P.graph.WellFormed) {ev : Event} {rest : List Event}
    (hI : Inv P ρ (ev :: rest)) (hw : Within P L ρ (ev :: rest)) :
    Within P L (step P ρ ev).1 ((step P ρ ev).2 ++ rest) where
  begun x hx := by
    cases hb : (ρ.task x).begun
    · -- the delivery is the last input of the begin of `x`, so every task `x` depends on ended
      obtain ⟨pred, rfl, hxs, hz⟩ := begun_step_of_not _ hb hx
      have hwf := hI.events_wf _ List.mem_cons_self
      refine .joined hxs (P.inDegree_pos hwf.1 (hw.inputs pred x List.mem_cons_self))
        fun s hs hsx => ?_
      have hopen : openDeps P (Direct.step P ρ (.input pred x)).1 x = 0 := by
        have := (hI.step hg).remaining_eq x hxs
        omega
      have hended := ended_of_openDeps hopen hs hsx
      rw [ended_step_input] at hended
      exact hw.begun s (hI.begun_of_ended hs hended)
    · exact hw.begun x hb
  inputs p y hin := by
    rcases List.mem_append.1 hin with hin | hin
    · exact successor_of_input_mem_step hin
    · exact hw.inputs p y (List.mem_cons_of_mem _ hin)

theorem drain (hg : P.graph.WellFormed) (hI : Inv P ρ es) (hw : Within P L ρ es) :
    Within P L (drain P ρ es) [] := by
  induction ρ, es using Direct.drain.induct P with
  | case1 ρ =>
    rw [Direct.drain]
    exact hw
  | case2 ρ ev rest ih =>
    rw [Direct.drain]
    exact ih (hI.step hg) (hw.step hg hI)

theorem dispatch (hg : P.graph.WellFormed) (hI : Inv P ρ []) (hw : Within P L ρ []) :
    Within P L (dispatch P ρ) [] := by
  induction ρ using Direct.dispatch.induct P with
  | case1 ρ hq =>
    rw [dispatch_of_queue_nil hq]
    exact hw
  | case2 ρ u rest hq hf =>
    rw [dispatch_of_pick_none hf]
    exact hw
  | case3 ρ u rest hq f hf ih =>
    rw [dispatch_of_pick_some hq hf]
    have hw' : Within P L (assign P { ρ with queue := rest } u f) [.done u.task u.subtask] :=
      ⟨hw.begun, fun _ _ h => by simp at h⟩
    exact ih ((hI.assign hq hf).drain hg) (hw'.drain hg (hI.assign hq hf))

theorem start (hg : P.graph.WellFormed) (hI : Inv P ρ []) (hw : Within P L ρ []) {t : Nat}
    (ht : t ∈ L) : Within P L (start P ρ t) [] := by
  unfold Direct.start
  dsimp only
  split
  · rename_i hs
    obtain ⟨htl, hnb, hr⟩ := hs
    refine Within.drain hg (hI.startFires htl hnb hr)
      ⟨fun x hx => ?_, fun p y hin => absurd hin (input_not_mem_beginEvents p y t)⟩
    by_cases hxt : x = t
    · subst hxt
      exact .linked ht
    · rw [setTask_task_of_ne hxt] at hx
      exact hw.begun x hx
  · exact hw

theorem foldl_start (hg : P.graph.WellFormed) (hI : Inv P ρ []) (hw : Within P L ρ [])
    {L' : List Nat} (hL : ∀ t ∈ L', t ∈ L) : Within P L (L'.foldl (Direct.start P) ρ) [] := by
  induction L' generalizing ρ with
  | nil => exact hw
  | cons t rest ih =>
    exact ih (hI.start hg t) (hw.start hg hI (hL t List.mem_cons_self))
      fun x hx => hL x (List.mem_cons_of_mem _ hx)

theorem schedule (hg : P.graph.WellFormed) : Within P L (schedule P L) [] :=
  (Within.foldl_start hg Inv.initial ⟨fun _ h => by simp [initial] at h, nofun⟩
    fun _ h => h).dispatch hg (Inv.initial.foldl_start hg L)

end Within

/-! Begun tasks stay begun. -/

theorem begun_drain {x : Nat} (h : (ρ.task x).begun = true) :
    ((drain P ρ es).task x).begun = true := by
  induction ρ, es using Direct.drain.induct P with
  | case1 ρ =>
    rw [Direct.drain]
    exact h
  | case2 ρ ev rest ih =>
    rw [Direct.drain]
    exact ih (begun_step ev h)

theorem begun_dispatch {x : Nat} (h : (ρ.task x).begun = true) :
    ((dispatch P ρ).task x).begun = true := by
  induction ρ using Direct.dispatch.induct P with
  | case1 ρ hq =>
    rw [dispatch_of_queue_nil hq]
    exact h
  | case2 ρ u rest hq hf =>
    rw [dispatch_of_pick_none hf]
    exact h
  | case3 ρ u rest hq f hf ih =>
    rw [dispatch_of_pick_some hq hf]
    exact ih (begun_drain h)

theorem begun_start {t x : Nat} (h : (ρ.task x).begun = true) :
    ((start P ρ t).task x).begun = true := by
  unfold Direct.start
  dsimp only
  split
  · refine begun_drain ?_
    by_cases hxt : x = t
    · subst hxt
      simp
    · rwa [setTask_task_of_ne hxt]
  · exact h

theorem begun_foldl_start {L' : List Nat} {x : Nat} (h : (ρ.task x).begun = true) :
    ((L'.foldl (start P) ρ).task x).begun = true := by
  induction L' generalizing ρ with
  | nil => exact h
  | cons t rest ih => exact ih (begun_start h)

theorem begun_start_self (hI : Inv P ρ []) {t : Nat} (ht : t < P.size) (h0 : P.inDegree t = 0) :
    ((start P ρ t).task t).begun = true := by
  unfold Direct.start
  dsimp only
  split
  · exact begun_drain (by simp)
  · rename_i hs
    -- it awaits nothing, so it did not start only because it had begun
    have hr : (ρ.task t).remaining = 0 := by
      have := hI.remaining_eq t ht
      have := openDeps_le_inDegree (P := P) ρ t
      simp only [List.countP_nil] at *
      omega
    cases hb : (ρ.task t).begun
    · exact absurd ⟨ht, hb, hr⟩ hs
    · rfl

theorem queue_dispatch (hg : P.graph.WellFormed) (hp : 0 < P.processors) (h : Inv P ρ []) :
    (dispatch P ρ).queue = [] := by
  induction ρ using Direct.dispatch.induct P with
  | case1 ρ hq =>
    rw [dispatch_of_queue_nil hq]
    exact hq
  | case2 ρ u rest hq hf =>
    have := pick_isSome (h.free_eq ▸ P.freeMoments_ne_nil hp ρ.log)
    rw [hf] at this
    cases this
  | case3 ρ u rest hq f hf ih =>
    rw [dispatch_of_pick_some hq hf]
    exact ih ((h.assign hq hf).drain hg)

/-! A whole run fires exactly the firing tasks. -/

section Schedule

variable (hg : P.graph.WellFormed) (hp : 0 < P.processors)
  (hL : ∀ t ∈ L, t < P.size ∧ P.inDegree t = 0)

include hg hp in
theorem queue_schedule : (schedule P L).queue = [] :=
  queue_dispatch hg hp (Inv.initial.foldl_start hg L)

include hg hL in
theorem begun_schedule_of_linked {t : Nat} (ht : t ∈ L) : ((schedule P L).task t).begun = true := by
  unfold schedule
  refine begun_dispatch ?_
  obtain ⟨L₁, L₂, hsplit⟩ := List.mem_iff_append.1 ht
  rw [hsplit, List.foldl_append, List.foldl_cons]
  exact begun_foldl_start (begun_start_self (Inv.initial.foldl_start hg L₁) (hL t ht).1 (hL t ht).2)

include hg hp hL

theorem begun_schedule_iff {t : Nat} : ((schedule P L).task t).begun = true ↔ P.Fires L t := by
  refine ⟨(Within.schedule hg).begun t, fun h => ?_⟩
  have hI : Inv P (schedule P L) [] := Inv.schedule hg L
  induction h with
  | linked ht => exact begun_schedule_of_linked hg hL ht
  | joined ht hd _ ih =>
    exact hI.begun_of_preds ht hd fun s hs hts =>
      hI.ended_of_begun (queue_schedule hg hp) hs (ih s hs hts)

theorem ended_schedule_iff {t : Nat} (ht : t < P.size) :
    ((schedule P L).task t).ended = true ↔ P.Fires L t := by
  have hI : Inv P (schedule P L) [] := Inv.schedule hg L
  rw [← begun_schedule_iff hg hp hL]
  exact ⟨hI.begun_of_ended ht, hI.ended_of_begun (queue_schedule hg hp) ht⟩

theorem placed_schedule_iff {u : UnitId} (hu : P.Valid u) :
    ((schedule P L).unit u).processor.isSome = true ↔ P.Fires L u.task := by
  have hI : Inv P (schedule P L) [] := Inv.schedule hg L
  rw [← begun_schedule_iff hg hp hL]
  exact ⟨hI.begun_of_placed, hI.placed_of_begun (queue_schedule hg hp) hu⟩

theorem placed_schedule_of_fires (hall : ∀ t < P.size, 0 < P.unitCount t → P.Fires L t)
    {u : UnitId} (hu : P.Valid u) : ((schedule P L).unit u).processor.isSome = true :=
  (placed_schedule_iff hg hp hL hu).2 (hall u.task hu.1 (Nat.zero_lt_of_lt hu.2))

theorem count_log_schedule {u : UnitId} (hu : P.Valid u) :
    ((schedule P L).log.map Placement.id).count u = if P.Fires L u.task then 1 else 0 := by
  have hI : Inv P (schedule P L) [] := Inv.schedule hg L
  split
  · rename_i hf
    exact List.count_eq_one_of_mem hI.log_nodup
      (hI.placed_mem u ((placed_schedule_iff hg hp hL hu).2 hf))
  · rename_i hf
    refine List.count_eq_zero_of_not_mem fun hm => hf ((placed_schedule_iff hg hp hL hu).1 ?_)
    obtain ⟨pl, hpl, rfl⟩ := List.mem_map.1 hm
    simp [hI.log_unit pl hpl]

end Schedule

end Direct

end ListScheduling
