import Mathlib.Order.WellFounded

/-! A loop whose body either returns or goes round again, run for at most `fuel` iterations: the model of
    a Go `for { … }` loop whose end is not structural. A run ends when the iterations it goes round keep an
    invariant and descend along a well-founded relation, and every exit from the invariant gives what the
    invariant promises. -/

namespace Loop

variable {σ α : Type*} (step : σ → α ⊕ σ)

/-- Run `step` from `s`: `some a` when an iteration returns `a`, `none` when the fuel runs out first. -/
def run : ℕ → σ → Option α
  | 0, _ => none
  | fuel + 1, s =>
    match step s with
    | .inl a => some a
    | .inr s' => run fuel s'

variable {step}

@[simp] theorem run_zero (s : σ) : run step 0 s = none := rfl

theorem run_succ_of_inl {s : σ} {a : α} (h : step s = .inl a) (fuel : ℕ) : run step (fuel + 1) s = some a := by
  simp [run, h]

theorem run_succ_of_inr {s s' : σ} (h : step s = .inr s') (fuel : ℕ) :
    run step (fuel + 1) s = run step fuel s' := by
  simp [run, h]

/-- A loop ends when every iteration that goes round keeps `I` and descends along the well-founded `r`. -/
theorem exists_run {I : σ → Prop} {r : σ → σ → Prop} (hwf : WellFounded r)
    (hstep : ∀ s s', I s → step s = .inr s' → I s' ∧ r s' s) {s : σ} (hs : I s) :
    ∃ fuel a, run step fuel s = some a := by
  induction s using hwf.induction with
  | _ s ih =>
    cases h : step s with
    | inl a => exact ⟨1, a, run_succ_of_inl h 0⟩
    | inr s' =>
      obtain ⟨hs', hr⟩ := hstep s s' hs h
      obtain ⟨fuel, a, hrun⟩ := ih s' hr hs'
      exact ⟨fuel + 1, a, (run_succ_of_inr h fuel).trans hrun⟩

/-- What every exit from a state of the invariant gives holds of the result. -/
theorem run_of_inv {I : σ → Prop} {Q : α → Prop} (hstep : ∀ s s', I s → step s = .inr s' → I s')
    (hdone : ∀ s a, I s → step s = .inl a → Q a) {fuel : ℕ} {s : σ} {a : α} (hs : I s)
    (h : run step fuel s = some a) : Q a := by
  induction fuel generalizing s with
  | zero => simp at h
  | succ fuel ih =>
    cases hst : step s with
    | inl b =>
      rw [run_succ_of_inl hst, Option.some.injEq] at h
      exact h ▸ hdone s b hs hst
    | inr s' =>
      rw [run_succ_of_inr hst] at h
      exact ih (hstep s s' hs hst) h

end Loop
