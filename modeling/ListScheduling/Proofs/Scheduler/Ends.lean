import ListScheduling.Proofs.Scheduler.Run

/-!
Runs that fail only for foreseen reasons.
-/
namespace ListScheduling.Run

variable {α β : Type} {s s' : Scheduler}

/-- Running `x` from `s` succeeds with a result and a state satisfying `Q`, or fails with an
error that `E` allows of the store it leaves. -/
def Ends (x : Run α) (s : Scheduler) (E : RunError → Store → Prop) (Q : α → Scheduler → Prop) :
    Prop :=
  (∃ a s', x.run.run s = (.ok a, s') ∧ Q a s') ∨ ∃ e s', x.run.run s = (.error e, s') ∧ E e s'.store

namespace Ends

variable {x : Run α} {E E' : RunError → Store → Prop} {Q : α → Scheduler → Prop}
  {R : β → Scheduler → Prop}

theorem of_ok {a : α} (h : x.run.run s = (.ok a, s')) (hq : Q a s') : Ends x s E Q :=
  .inl ⟨a, s', h, hq⟩

theorem of_error {e : RunError} (h : x.run.run s = (.error e, s')) (he : E e s'.store) :
    Ends x s E Q :=
  .inr ⟨e, s', h, he⟩

theorem pure {a : α} (hq : Q a s) : Ends (Pure.pure a) s E Q := of_ok rfl hq

theorem throw {e : RunError} (he : E e s.store) : Ends (MonadExcept.throw e : Run α) s E Q :=
  of_error rfl he

theorem of_run_eq {y : Run α} (h : x.run.run s = y.run.run s') (hy : Ends y s' E Q) :
    Ends x s E Q := by
  unfold Ends
  rw [h]
  exact hy

theorem mono {Q' : α → Scheduler → Prop} (h : Ends x s E Q) (hq : ∀ a s, Q a s → Q' a s)
    (he : ∀ e st, E e st → E' e st) : Ends x s E' Q' := by
  rcases h with ⟨a, s', hx, hQ⟩ | ⟨e, s', hx, hE⟩
  · exact of_ok hx (hq a s' hQ)
  · exact of_error hx (he e s'.store hE)

theorem bind {f : α → Run β} (hx : Ends x s E Q) (hf : ∀ a s', Q a s' → Ends (f a) s' E R) :
    Ends (x >>= f) s E R := by
  rcases hx with ⟨a, s₁, hx, hQ⟩ | ⟨e, s₁, hx, hE⟩
  · rcases hf a s₁ hQ with ⟨b, s₂, hf', hR⟩ | ⟨e, s₂, hf', hE⟩
    · exact of_ok ((run_bind_ok hx).trans hf') hR
    · exact of_error ((run_bind_ok hx).trans hf') hE
  · exact of_error (run_bind_error hx) hE

theorem bind_ok {f : α → Run β} {a : α} (h : x.run.run s = (.ok a, s')) (hf : Ends (f a) s' E R) :
    Ends (x >>= f) s E R := by
  unfold Ends
  rw [run_bind_ok h]
  exact hf

theorem guarded (h : Ends x s E Q) : Ends (Run.guarded x) s E Q := by
  rcases h with ⟨a, s', hx, hQ⟩ | ⟨e, s', hx, hE⟩
  · exact of_ok (run_guarded_ok hx) hQ
  · exact of_error (run_guarded_error hx) hE

theorem finishStep {next : Phase} (h : Ends x s E Q) :
    Ends (Run.finishStep next x) s E fun a s' => ∃ s₀, Q a s₀ ∧ s' = { s₀ with phase := next } := by
  rcases h with ⟨a, s₀, hx, hQ⟩ | ⟨e, s₀, hx, hE⟩
  · exact of_ok (run_finishStep_ok hx) ⟨s₀, hQ, rfl⟩
  · exact of_error (run_finishStep_error hx) hE

theorem finishStep_of {next : Phase} (h : Ends x s E fun a s₀ => Q a { s₀ with phase := next }) :
    Ends (Run.finishStep next x) s E Q :=
  (finishStep h).mono (by rintro a s' ⟨s₀, h₀, rfl⟩; exact h₀) fun _ _ he => he

theorem forIn {xs : List β} {f : β → PUnit → Run (ForInStep PUnit)} (I : Nat → Scheduler → Prop)
    (h0 : I 0 s)
    (hstep : ∀ i (hi : i < xs.length) s, I i s →
      Ends (f xs[i] ⟨⟩) s E fun r s' => r = .yield ⟨⟩ ∧ I (i + 1) s') :
    Ends (ForIn.forIn xs ⟨⟩ f) s E fun _ s' => I xs.length s' := by
  induction xs generalizing I s with
  | nil => exact Ends.pure h0
  | cons y ys ih =>
    rw [List.forIn_cons]
    refine bind (hstep 0 (by simp) s h0) fun r s₁ h₁ => ?_
    obtain ⟨rfl, h₁⟩ := h₁
    exact ih (fun i s => I (i + 1) s) h₁ fun i hi s hI => hstep (i + 1) (by simp; omega) s hI

end Ends

end ListScheduling.Run
