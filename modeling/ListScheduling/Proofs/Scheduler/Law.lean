import ListScheduling.Proofs.Scheduler.Run

/-!
Laws that every part of a run keeps.
-/
namespace ListScheduling.Run

/-- An invariant of states and a relation to the states a run leads to. -/
structure Law where
  inv : Scheduler → Prop
  rel : Scheduler → Scheduler → Prop
  refl : ∀ s, inv s → rel s s
  trans : ∀ {s₁ s₂ s₃}, rel s₁ s₂ → rel s₂ s₃ → rel s₁ s₃
  inv_of_rel : ∀ {s s'}, rel s s' → inv s'
  poison : ∀ {s s'}, rel s s' → rel s { s' with phase := .poisoned }

variable {α β γ : Type} {L : Law}

theorem Law.guarded_at {x : Run α} {s : Scheduler} (h : L.rel s (x.run.run s).2) :
    L.rel s ((Run.guarded x).run.run s).2 := by
  rcases hx : x.run.run s with ⟨e | a, s'⟩
  · rw [run_guarded_error hx]
    exact L.poison (by simpa [hx] using h)
  · rw [run_guarded_ok hx]
    simpa [hx] using h

theorem Law.bind_at {x : Run α} {f : α → Run β} {s : Scheduler} (hx : L.rel s (x.run.run s).2)
    (hf : ∀ a s', x.run.run s = (.ok a, s') → L.rel s s' → L.rel s' ((f a).run.run s').2) :
    L.rel s ((x >>= f).run.run s).2 := by
  rcases h : x.run.run s with ⟨e | a, s'⟩
  · rw [run_bind_error h]
    simpa [h] using hx
  · rw [run_bind_ok h]
    have h₁ : L.rel s s' := by simpa [h] using hx
    exact L.trans h₁ (hf a s' h h₁)

/-- Every run of `x` from a state with the invariant ends in a state related to it. -/
def Respects (L : Law) (x : Run α) : Prop := ∀ s, L.inv s → L.rel s (x.run.run s).2

namespace Respects

theorem pure (a : α) : Respects L (Pure.pure a : Run α) := fun s h => L.refl s h

theorem throw (e : RunError) : Respects L (MonadExcept.throw e : Run α) := fun s h => L.refl s h

theorem throw_bind (e : RunError) (f : α → Run β) : Respects L (MonadExcept.throw e >>= f) :=
  fun s h => L.refl s h

theorem get : Respects L (MonadState.get : Run Scheduler) := fun s h => L.refl s h

theorem liftStore (x : Except StoreError α) : Respects L (Run.liftStore x) := by
  intro s h
  cases x <;> exact L.refl s h

theorem modify {f : Scheduler → Scheduler} (hf : ∀ s, L.inv s → L.rel s (f s)) :
    Respects L (modify f : Run PUnit) := hf

theorem get_bind {f : Scheduler → Run β} (hf : ∀ s, L.inv s → L.rel s ((f s).run.run s).2) :
    Respects L (MonadState.get >>= f) := fun s h => by
  rw [run_get_bind]
  exact hf s h

theorem bind_at {x : Run α} {f : α → Run β} {s : Scheduler} (hx : Respects L x) (hs : L.inv s)
    (hf : ∀ a s', x.run.run s = (.ok a, s') → L.rel s s' → L.rel s' ((f a).run.run s').2) :
    L.rel s ((x >>= f).run.run s).2 :=
  Law.bind_at (hx s hs) hf

theorem bind {x : Run α} {f : α → Run β} (hx : Respects L x) (hf : ∀ a, Respects L (f a)) :
    Respects L (x >>= f) :=
  fun _ hs => hx.bind_at hs fun a s' _ h₁ => hf a s' (L.inv_of_rel h₁)

theorem guarded {x : Run α} (hx : Respects L x) : Respects L (Run.guarded x) :=
  fun s hs => Law.guarded_at (hx s hs)

theorem enter (step : Step) (expected : Phase) : Respects L (Run.enter step expected) := by
  refine get_bind fun s hs => ?_
  split
  · exact L.refl s hs
  · split
    · exact L.refl s hs
    · exact L.refl s hs

theorem finishStep {next : Phase} {x : Run α} (hx : Respects L x)
    (hp : ∀ {s s'}, L.rel s s' → L.rel s { s' with phase := next }) :
    Respects L (Run.finishStep next x) :=
  (hx.bind fun _ => (modify fun _ hs => hp (L.refl _ hs)).bind fun _ => pure _).guarded

theorem filterMapM {δ : Type} {xs : List β} {f : β → Run (Option δ)} (hf : ∀ x, Respects L (f x)) :
    Respects L (xs.filterMapM f) := by
  induction xs with
  | nil => exact pure []
  | cons x xs ih =>
    rw [List.filterMapM_cons]
    refine (hf x).bind fun a => ?_
    cases a with
    | none => exact ih
    | some b => exact ih.bind fun _ => pure _

theorem forIn {xs : List β} {b : γ} {f : β → γ → Run (ForInStep γ)}
    (hf : ∀ x b, Respects L (f x b)) : Respects L (ForIn.forIn xs b f) := by
  induction xs generalizing b with
  | nil => exact pure b
  | cons x xs ih =>
    rw [List.forIn_cons]
    refine (hf x b).bind fun r => ?_
    cases r with
    | done b' => exact pure b'
    | yield b' => exact ih

theorem returns {x : Run α} (hx : Respects L x) {s : Scheduler} (hs : L.inv s) :
    Returns x s (L.rel s) fun _ => L.rel s := by
  rcases h : x.run.run s with ⟨e | a, s'⟩
  · exact .of_error h (by simpa [h] using hx s hs)
  · exact .of_ok h (by simpa [h] using hx s hs)

end Respects

end ListScheduling.Run
