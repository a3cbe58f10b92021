import Mathlib

/-! Tallies of weighted slots. Slots `0, …, n - 1` carry weights, and some of them are filled; the tally is
    the weight of the filled ones. Filling an empty slot adds its weight, and with nonnegative weights the
    tally never passes the total weight. -/

namespace Tally

open Finset

/-- The weight of the filled slots below `n`. -/
def tally (n : ℕ) (w : ℕ → ℤ) (filled : ℕ → Bool) : ℤ := ∑ i ∈ range n, if filled i then w i else 0

variable {n : ℕ} {w : ℕ → ℤ} {f g : ℕ → Bool}

@[simp] theorem tally_none : tally n w (fun _ => false) = 0 := by
  simp [tally]

theorem tally_congr (h : ∀ i < n, f i = g i) : tally n w f = tally n w g :=
  sum_congr rfl fun i hi => by rw [h i (mem_range.mp hi)]

/-- Filling the empty slot `i` adds its weight. -/
theorem tally_fill {i : ℕ} (hi : i < n) (hf : f i = false) (hg : ∀ j < n, g j = (f j || decide (j = i))) :
    tally n w g = tally n w f + w i := by
  unfold tally
  rw [← sum_erase_add _ _ (mem_range.mpr hi), ← sum_erase_add _ _ (mem_range.mpr hi), hg i hi, hf]
  have hrest : ∑ j ∈ (range n).erase i, (if g j then w j else 0) = ∑ j ∈ (range n).erase i, (if f j then w j else 0) :=
    sum_congr rfl fun j hj => by
      obtain ⟨hji, hj⟩ := mem_erase.mp hj
      rw [hg j (mem_range.mp hj), decide_eq_false hji, Bool.or_false]
  simp [hrest]

/-- With nonnegative weights the tally is at most the total weight. -/
theorem tally_le_total (hw : ∀ i < n, 0 ≤ w i) : tally n w f ≤ ∑ i ∈ range n, w i :=
  sum_le_sum fun i hi => by
    split_ifs
    · exact le_rfl
    · exact hw i (mem_range.mp hi)

/-- With nonnegative weights more filled slots weigh at least as much. -/
theorem tally_mono (hw : ∀ i < n, 0 ≤ w i) (h : ∀ i < n, f i = true → g i = true) : tally n w f ≤ tally n w g :=
  sum_le_sum fun i hi => by
    have := hw i (mem_range.mp hi)
    cases hfi : f i
    · split_ifs <;> simp_all
    · simp [h i (mem_range.mp hi) hfi]

end Tally
