import Mathlib

/-! Bringing integers into a window. Dividing values by a ratio with truncation toward zero, as Go's `/`
    does, brings values at most `r * m` apart to at most `m` apart; subtracting the Euclidean average of
    values at most `d` apart keeps each within `d` of zero and leaves a sum in `[0, n)`. -/

namespace Rescale

/-! ### Truncated division -/

/-- The remainders of truncated division of `q ≤ p` differ by less than the divisor. -/
theorem tmod_sub_tmod_lt {p q r : ℤ} (hr : 0 < r) (hqp : q ≤ p) : q.tmod r - p.tmod r < r := by
  rcases le_or_gt 0 p with hp | hp
  · have h₁ := Int.tmod_nonneg r hp
    have h₂ := Int.tmod_lt_of_pos q hr
    linarith
  · -- both are negative, and so are both remainders
    have hq : 0 ≤ (-q).tmod r := Int.tmod_nonneg r (by linarith)
    rw [Int.neg_tmod] at hq
    have h₂ := Int.lt_tmod_of_pos p hr
    linarith

/-- Truncated division by `r` brings values at most `r * m` apart to at most `m` apart. -/
theorem tdiv_sub_tdiv_le {p q r m : ℤ} (hr : 0 < r) (hm : 0 ≤ m) (h : p - q ≤ r * m) :
    p.tdiv r - q.tdiv r ≤ m := by
  rcases lt_or_ge p q with hpq | hqp
  · -- truncation is monotone
    have := Int.tdiv_le_tdiv hr hpq.le
    linarith
  · have hp := Int.mul_tdiv_add_tmod p r
    have hq := Int.mul_tdiv_add_tmod q r
    have hrem := tmod_sub_tmod_lt hr hqp
    have hlt : r * (p.tdiv r - q.tdiv r) < r * (m + 1) := by
      rw [mul_sub, mul_add, mul_one]
      linarith
    have := lt_of_mul_lt_mul_left hlt hr.le
    omega

theorem abs_tdiv_le (p r : ℤ) : |p.tdiv r| ≤ |p| := by
  rw [Int.abs_eq_natAbs, Int.abs_eq_natAbs]
  exact_mod_cast Int.natAbs_tdiv_le_natAbs p r

/-- The ceiling quotient `(d + m - 1) / m` times `m` reaches `d`. -/
theorem le_mul_ceil {d m : ℤ} (hm : 0 < m) : d ≤ (d + m - 1) / m * m := by
  have h₁ := Int.emod_lt_of_pos (d + m - 1) hm
  have h₂ := Int.emod_def (d + m - 1) m
  linarith

/-! ### The Euclidean average -/

theorem sum_map_sub {β : Type} (l : List β) (f g : β → ℤ) :
    (l.map fun x => f x - g x).sum = (l.map f).sum - (l.map g).sum := by
  induction l with
  | nil => simp
  | cons x l ih =>
    simp only [List.map_cons, List.sum_cons, ih]
    ring

section Average

variable {l : List ℤ} {a b : ℤ}

/-- The average of values in `[a, b]` is in `[a, b]`. -/
theorem average_mem (hne : l ≠ []) (hd : ∀ y ∈ l, a ≤ y ∧ y ≤ b) :
    a ≤ l.sum / l.length ∧ l.sum / l.length ≤ b := by
  have hn : (0 : ℤ) < l.length := by
    exact_mod_cast List.length_pos_iff.mpr hne
  have hlo := List.card_nsmul_le_sum l a fun y hy => (hd y hy).1
  have hhi := List.sum_le_card_nsmul l b fun y hy => (hd y hy).2
  rw [nsmul_eq_mul] at hlo hhi
  constructor
  · exact Int.le_ediv_of_mul_le hn (by linarith)
  · exact Int.ediv_le_of_le_mul hn (by linarith)

/-- Subtracting the average leaves the sum's remainder modulo the length. -/
theorem sum_sub_average : (l.map (· - l.sum / l.length)).sum = l.sum % l.length := by
  rw [sum_map_sub l (fun x => x) fun _ => l.sum / l.length, List.map_id', List.map_const', List.sum_replicate, nsmul_eq_mul,
    Int.emod_def]

theorem sum_sub_average_mem (hne : l ≠ []) :
    0 ≤ (l.map (· - l.sum / l.length)).sum ∧ (l.map (· - l.sum / l.length)).sum < l.length := by
  have hn : (0 : ℤ) < l.length := by
    exact_mod_cast List.length_pos_iff.mpr hne
  rw [sum_sub_average]
  exact ⟨Int.emod_nonneg _ hn.ne', Int.emod_lt_of_pos _ hn⟩

end Average

end Rescale
