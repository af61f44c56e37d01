import Mathlib
import ListScheduling.Scheduler.State

/-!
Running steps of a run.
-/
namespace ListScheduling.Run

variable {α β : Type} {s s' : Scheduler}

@[simp] theorem run_pure (a : α) (s : Scheduler) : (pure a : Run α).run.run s = (.ok a, s) := rfl

@[simp] theorem run_get (s : Scheduler) : (get : Run Scheduler).run.run s = (.ok s, s) := rfl

@[simp] theorem run_set (s' s : Scheduler) : (set s' : Run Unit).run.run s = (.ok (), s') := rfl

@[simp] theorem run_modify (f : Scheduler → Scheduler) (s : Scheduler) :
    (modify f : Run Unit).run.run s = (.ok (), f s) := rfl

@[simp] theorem run_throw (e : RunError) (s : Scheduler) :
    (throw e : Run α).run.run s = (.error e, s) := rfl

@[simp] theorem run_liftStore_ok (a : α) (s : Scheduler) :
    (liftStore (.ok a)).run.run s = (.ok a, s) := rfl

@[simp] theorem run_liftStore_error (e : StoreError) (s : Scheduler) :
    (liftStore (.error e) : Run α).run.run s = (.error (.store e), s) := rfl

@[simp] theorem run_modifyStore (f : Store → Store) (s : Scheduler) :
    (modifyStore f).run.run s = (.ok (), { s with store := f s.store }) := rfl

@[simp] theorem run_modifyStats (f : Stats → Stats) (s : Scheduler) :
    (modifyStats f).run.run s = (.ok (), { s with stats := f s.stats }) := rfl

/-! Running a step that starts with a building block: the block's effect, then the rest. -/

@[simp] theorem run_get_bind (f : Scheduler → Run β) (s : Scheduler) :
    (get >>= f).run.run s = (f s).run.run s := rfl

@[simp] theorem run_set_bind (s' : Scheduler) (f : PUnit → Run β) (s : Scheduler) :
    (set s' >>= f).run.run s = (f ⟨⟩).run.run s' := rfl

@[simp] theorem run_pure_bind (a : α) (f : α → Run β) (s : Scheduler) :
    (pure a >>= f).run.run s = (f a).run.run s := rfl

@[simp] theorem run_throw_bind (e : RunError) (f : α → Run β) (s : Scheduler) :
    (throw e >>= f).run.run s = (.error e, s) := rfl

@[simp] theorem run_liftStore_ok_bind (a : α) (f : α → Run β) (s : Scheduler) :
    (liftStore (.ok a) >>= f).run.run s = (f a).run.run s := rfl

@[simp] theorem run_liftStore_error_bind (e : StoreError) (f : α → Run β) (s : Scheduler) :
    (liftStore (.error e) >>= f).run.run s = (.error (.store e), s) := rfl

@[simp] theorem run_modify_bind (g : Scheduler → Scheduler) (f : PUnit → Run β) (s : Scheduler) :
    (modify g >>= f).run.run s = (f ⟨⟩).run.run (g s) := rfl

@[simp] theorem run_modifyStore_bind (g : Store → Store) (f : Unit → Run β) (s : Scheduler) :
    (modifyStore g >>= f).run.run s = (f ()).run.run { s with store := g s.store } := rfl

@[simp] theorem run_modifyStats_bind (g : Stats → Stats) (f : Unit → Run β) (s : Scheduler) :
    (modifyStats g >>= f).run.run s = (f ()).run.run { s with stats := g s.stats } := rfl

@[simp] theorem run_modifyStore_map (g : Store → Store) (f : Unit → β) (s : Scheduler) :
    (f <$> modifyStore g).run.run s = (.ok (f ()), { s with store := g s.store }) := rfl

@[simp] theorem run_modifyStats_map (g : Stats → Stats) (f : Unit → β) (s : Scheduler) :
    (f <$> modifyStats g).run.run s = (.ok (f ()), { s with stats := g s.stats }) := rfl

@[simp] theorem run_modify_map (g : Scheduler → Scheduler) (f : PUnit → β) (s : Scheduler) :
    (f <$> (modify g : Run PUnit)).run.run s = (.ok (f ⟨⟩), g s) := rfl

@[simp] theorem run_get_map (f : Scheduler → β) (s : Scheduler) :
    (f <$> (get : Run Scheduler)).run.run s = (.ok (f s), s) := rfl

@[simp] theorem run_liftStore_ok_map (a : α) (f : α → β) (s : Scheduler) :
    (f <$> liftStore (.ok a)).run.run s = (.ok (f a), s) := rfl

theorem run_bind_ok {x : Run α} {f : α → Run β} {a : α} (h : x.run.run s = (.ok a, s')) :
    (x >>= f).run.run s = (f a).run.run s' := by
  simp only [ExceptT.run_bind, StateT.run_bind, h]
  rfl

theorem run_bind_error {x : Run α} {f : α → Run β} {e : RunError}
    (h : x.run.run s = (.error e, s')) : (x >>= f).run.run s = (.error e, s') := by
  simp only [ExceptT.run_bind, StateT.run_bind, h]
  rfl

theorem run_bind_congr {x y : Run α} {f : α → Run β} {s₁ s₂ : Scheduler}
    (h : x.run.run s₁ = y.run.run s₂) : (x >>= f).run.run s₁ = (y >>= f).run.run s₂ := by
  simp only [ExceptT.run_bind, StateT.run_bind, h]

theorem run_filterMapM {γ : Type} {l : List β} {f : β → Run (Option γ)} {g : β → Option γ}
    (h : ∀ x ∈ l, (f x).run.run s = (.ok (g x), s)) :
    (l.filterMapM f).run.run s = (.ok (l.filterMap g), s) := by
  induction l with
  | nil => rfl
  | cons x l ih =>
    have ih' := ih fun y hy => h y (List.mem_cons_of_mem _ hy)
    rw [List.filterMapM_cons, run_bind_ok (h x List.mem_cons_self)]
    cases hg : g x with
    | none => simpa [List.filterMap_cons, hg] using ih'
    | some b =>
      simp only []
      rw [run_bind_ok ih', List.filterMap_cons, hg]
      rfl

theorem run_guarded_ok {x : Run α} {a : α} (h : x.run.run s = (.ok a, s')) :
    (guarded x).run.run s = (.ok a, s') := by
  show (ExceptT.tryCatch x _).run.run s = _
  have h' : StateT.run x s = (.ok a, s') := h
  simp only [ExceptT.tryCatch, ExceptT.run_mk, StateT.run_bind, h']
  rfl

theorem run_guarded_error {x : Run α} {e : RunError} (h : x.run.run s = (.error e, s')) :
    (guarded x).run.run s = (.error e, { s' with phase := .poisoned }) := by
  show (ExceptT.tryCatch x _).run.run s = _
  have h' : StateT.run x s = (.error e, s') := h
  simp only [ExceptT.tryCatch, ExceptT.run_mk, StateT.run_bind, h']
  rfl

/-! Entering a step and finishing it. -/

theorem run_enter {step : Step} {expected : Phase} (h : s.phase = expected)
    (hne : expected ≠ .poisoned) : (enter step expected).run.run s = (.ok (), s) := by
  unfold enter
  rw [run_get_bind]
  split
  · rename_i hp
    exact absurd (h.symm.trans hp) hne
  · rw [if_pos h]
    rfl

theorem run_finishStep_ok {next : Phase} {x : Run α} {a : α} (h : x.run.run s = (.ok a, s')) :
    (finishStep next x).run.run s = (.ok a, { s' with phase := next }) :=
  run_guarded_ok (by rw [run_bind_ok h]; rfl)

theorem run_finishStep_error {next : Phase} {x : Run α} {e : RunError}
    (h : x.run.run s = (.error e, s')) :
    (finishStep next x).run.run s = (.error e, { s' with phase := .poisoned }) :=
  run_guarded_error (run_bind_error h)

/-- Running `x` from `s` succeeds with a result and a state satisfying `Q`, or fails and leaves a
state satisfying `E`. -/
def Returns (x : Run α) (s : Scheduler) (E : Scheduler → Prop) (Q : α → Scheduler → Prop) :
    Prop :=
  (∃ a s', x.run.run s = (.ok a, s') ∧ Q a s') ∨ (∃ e s', x.run.run s = (.error e, s') ∧ E s')

namespace Returns

variable {x : Run α} {E : Scheduler → Prop} {Q : α → Scheduler → Prop}

theorem of_ok {a : α} (h : x.run.run s = (.ok a, s')) (hq : Q a s') : Returns x s E Q :=
  .inl ⟨a, s', h, hq⟩

theorem of_error {e : RunError} (h : x.run.run s = (.error e, s')) (he : E s') :
    Returns x s E Q :=
  .inr ⟨e, s', h, he⟩

theorem pure {a : α} (hq : Q a s) : Returns (Pure.pure a) s E Q := of_ok rfl hq

theorem of_run_eq {y : Run α} (h : x.run.run s = y.run.run s) (hy : Returns y s E Q) :
    Returns x s E Q := by
  unfold Returns
  rw [h]
  exact hy

theorem throw {e : RunError} (he : E s) : Returns (MonadExcept.throw e : Run α) s E Q :=
  of_error rfl he

theorem mono {E' : Scheduler → Prop} {R : α → Scheduler → Prop} (h : Returns x s E Q)
    (hq : ∀ a s, Q a s → R a s) (he : ∀ s, E s → E' s) : Returns x s E' R := by
  rcases h with ⟨a, s', hx, hQ⟩ | ⟨e, s', hx, hE⟩
  · exact of_ok hx (hq a s' hQ)
  · exact of_error hx (he s' hE)

theorem bind {f : α → Run β} {R : β → Scheduler → Prop} (hx : Returns x s E Q)
    (hf : ∀ a s', Q a s' → Returns (f a) s' E R) : Returns (x >>= f) s E R := by
  rcases hx with ⟨a, s₁, hx, hQ⟩ | ⟨e, s₁, hx, hE⟩
  · rcases hf a s₁ hQ with ⟨b, s₂, hf', hR⟩ | ⟨e, s₂, hf', hE⟩
    · exact of_ok ((run_bind_ok hx).trans hf') hR
    · exact of_error ((run_bind_ok hx).trans hf') hE
  · exact of_error (run_bind_error hx) hE

theorem guarded {E' : Scheduler → Prop} (h : Returns x s E Q)
    (he : ∀ s', E s' → E' { s' with phase := .poisoned }) : Returns (Run.guarded x) s E' Q := by
  rcases h with ⟨a, s', hx, hQ⟩ | ⟨e, s', hx, hE⟩
  · exact of_ok (run_guarded_ok hx) hQ
  · exact of_error (run_guarded_error hx) (he s' hE)

theorem bind_ok {f : α → Run β} {R : β → Scheduler → Prop} {a : α}
    (h : x.run.run s = (.ok a, s')) (hf : Returns (f a) s' E R) : Returns (x >>= f) s E R := by
  unfold Returns
  rw [run_bind_ok h]
  exact hf

theorem ok (h : Returns x s E Q) (he : ∀ s', ¬E s') :
    ∃ a s', x.run.run s = (.ok a, s') ∧ Q a s' := by
  rcases h with h | ⟨e, s', -, hE⟩
  · exact h
  · exact absurd hE (he s')

theorem finishStep {next : Phase} (h : Returns x s E Q) :
    Returns (Run.finishStep next x) s (fun s' => ∃ s₀, E s₀ ∧ s' = { s₀ with phase := .poisoned })
      fun a s' => ∃ s₀, Q a s₀ ∧ s' = { s₀ with phase := next } := by
  rcases h with ⟨a, s₀, hx, hQ⟩ | ⟨e, s₀, hx, hE⟩
  · exact of_ok (run_finishStep_ok hx) ⟨s₀, hQ, rfl⟩
  · exact of_error (run_finishStep_error hx) ⟨s₀, hE, rfl⟩

theorem snd {R : Scheduler → Prop} (h : Returns x s E Q) (he : ∀ s', E s' → R s')
    (hq : ∀ a s', Q a s' → R s') : R (x.run.run s).2 := by
  rcases h with ⟨a, s', hx, hQ⟩ | ⟨e, s', hx, hE⟩
  · rw [hx]
    exact hq a s' hQ
  · rw [hx]
    exact he s' hE

theorem of_eq_ok {a : α} (h : Returns x s E Q) (hx : x.run.run s = (.ok a, s')) : Q a s' := by
  rcases h with ⟨b, s₁, hx', hQ⟩ | ⟨e, s₁, hx', -⟩
  · rw [hx] at hx'
    cases hx'
    exact hQ
  · rw [hx] at hx'
    cases hx'

theorem of_eq_error {e : RunError} (h : Returns x s E Q) (hx : x.run.run s = (.error e, s')) :
    E s' := by
  rcases h with ⟨b, s₁, hx', -⟩ | ⟨e', s₁, hx', hE⟩
  · rw [hx] at hx'
    cases hx'
  · rw [hx] at hx'
    cases hx'
    exact hE

theorem forM {xs : List β} {f : β → Run Unit} (I : Nat → Scheduler → Prop) (h0 : I 0 s)
    (hstep : ∀ i (hi : i < xs.length) s, I i s → Returns (f xs[i]) s E fun _ s' => I (i + 1) s') :
    Returns (xs.forM f) s E fun _ s' => I xs.length s' := by
  induction xs generalizing I s with
  | nil => exact Returns.pure h0
  | cons y ys ih =>
    refine bind (hstep 0 (by simp) s h0) fun _ s₁ h₁ => ?_
    exact ih (fun i s => I (i + 1) s) h₁ fun i hi s hI => hstep (i + 1) (by simp; omega) s hI

theorem forIn {xs : List β} {f : β → PUnit → Run (ForInStep PUnit)} (I : Nat → Scheduler → Prop)
    (h0 : I 0 s)
    (hstep : ∀ i (hi : i < xs.length) s, I i s →
      Returns (f xs[i] ⟨⟩) s E fun r s' => r = .yield ⟨⟩ ∧ I (i + 1) s') :
    Returns (ForIn.forIn xs ⟨⟩ f) s E fun _ s' => I xs.length s' := by
  induction xs generalizing I s with
  | nil => exact Returns.pure h0
  | cons y ys ih =>
    rw [List.forIn_cons]
    refine bind (hstep 0 (by simp) s h0) fun r s₁ h₁ => ?_
    obtain ⟨rfl, h₁⟩ := h₁
    exact ih (fun i s => I (i + 1) s) h₁ fun i hi s hI => hstep (i + 1) (by simp; omega) s hI

end Returns

end ListScheduling.Run
