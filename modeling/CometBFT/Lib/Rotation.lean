import Mathlib

/-! A weighted round robin over a finite set of members. Each member holds a priority; an election
    adds every member's weight to its priority and takes the total weight from an elected member of
    greatest priority. How ties are broken does not matter below: a run is any sequence of elections
    in which each elected member has the greatest priority.

    Elections keep the sum of the priorities (`IsRun.sum_eq`), and a run's priorities are the start
    plus the weights times the elapsed steps minus the total weight times the elections of each member
    (`IsRun.apply_eq`). When the sum is zero no priority falls to minus the total weight (`IsRun.lower`),
    so a run from all zeros comes back to all zeros after as many elections as the total weight
    (`IsRun.return_zero`), having elected each member exactly its weight (`IsRun.count_eq_weight`). -/

namespace Rotation

open Finset

variable {ι : Type*}

/-- The elections of `i` among the `n` elections that follow step `s`. -/
def count [DecidableEq ι] (k : ℕ → ι) (i : ι) (s n : ℕ) : ℕ := ((range n).filter fun t => k (s + t) = i).card

theorem count_zero [DecidableEq ι] (k : ℕ → ι) (i : ι) (s : ℕ) : count k i s 0 = 0 := by
  simp [count]

theorem count_succ [DecidableEq ι] (k : ℕ → ι) (i : ι) (s n : ℕ) :
    count k i s (n + 1) = count k i s n + if k (s + n) = i then 1 else 0 := by
  unfold count
  rw [range_add_one, filter_insert]
  split_ifs with h
  · rw [card_insert_of_notMem (fun hm => by simp at hm)]
  · rfl

/-- The first election of a window and the rest of it. -/
theorem count_succ_left [DecidableEq ι] (k : ℕ → ι) (i : ι) (s n : ℕ) :
    count k i s (n + 1) = (if k s = i then 1 else 0) + count k i (s + 1) n := by
  induction n with
  | zero => simp [count_succ, count_zero]
  | succ n ih =>
    rw [count_succ, ih, count_succ, show s + (n + 1) = s + 1 + n by omega]
    omega

/-- Two election sequences that agree on a window on whether they elect `i` and `i'` count them alike. -/
theorem count_congr [DecidableEq ι] {κ : Type*} [DecidableEq κ] {k : ℕ → ι} {k' : ℕ → κ} {i : ι} {i' : κ}
    {s n : ℕ} (h : ∀ t < n, (k (s + t) = i ↔ k' (s + t) = i')) : count k i s n = count k' i' s n := by
  unfold count
  rw [filter_congr fun t ht => h t (mem_range.mp ht)]

/-- Elections that repeat with period `n` elect each member as often in every window of `n`. -/
theorem count_periodic [DecidableEq ι] {k : ℕ → ι} {n : ℕ} (hk : ∀ t, k (t + n) = k t) (i : ι) (s : ℕ) :
    count k i s n = count k i 0 n := by
  induction s with
  | zero => rfl
  | succ s ih =>
    -- Sliding the window by one drops the election at `s` and adds the one at `s + n`.
    have hdrop := count_succ k i s n
    rw [count_succ_left, hk] at hdrop
    omega

variable [Fintype ι]

/-- The total weight. -/
def total (w : ι → ℤ) : ℤ := ∑ i, w i

/-- `k` has the greatest priority once every member has gained its weight. -/
def IsElected (w c : ι → ℤ) (k : ι) : Prop := ∀ i, c i + w i ≤ c k + w k

/-- An elected member has a positive priority after the gain when the sum is nonnegative and the
    total weight positive. -/
theorem elected_pos {w c : ι → ℤ} {k : ι} (he : IsElected w c k) (hs : 0 ≤ ∑ i, c i) (hT : 0 < total w) :
    0 < c k + w k := by
  by_contra hle
  have hall : ∀ i ∈ (univ : Finset ι), c i + w i ≤ 0 := fun i _ => (he i).trans (not_lt.mp hle)
  have hsum : ∑ i, (c i + w i) ≤ 0 := sum_nonpos hall
  rw [sum_add_distrib] at hsum
  unfold total at hT
  omega

/-- Priorities that sum to zero and are at most `d` apart lie within `d` of zero. -/
theorem abs_le_of_spread [Nonempty ι] {c : ι → ℤ} {d : ℤ} (hs : ∑ i, c i = 0) (hd : ∀ i j, c i - c j ≤ d)
    (i : ι) : |c i| ≤ d := by
  -- Some priority is at most zero and some at least zero.
  obtain ⟨j, -, hj⟩ := exists_le_of_sum_le (f := c) (g := 0) univ_nonempty (by simp [hs])
  obtain ⟨j', -, hj'⟩ := exists_le_of_sum_le (f := 0) (g := c) univ_nonempty (by simp [hs])
  have h₁ := hd i j
  have h₂ := hd j' i
  simp only [Pi.zero_apply] at hj hj'
  rw [abs_le]
  constructor <;> omega

variable [DecidableEq ι]

/-- One election of `k`: every member gains its weight, `k` loses the total weight. -/
def elect (w c : ι → ℤ) (k : ι) : ι → ℤ := fun i => c i + w i - if i = k then total w else 0

/-- A run of `N` elections: the priorities `c t` after `t` elections, `k t` elected at the election
    after `t`. -/
structure IsRun (w : ι → ℤ) (c : ℕ → ι → ℤ) (k : ℕ → ι) (N : ℕ) : Prop where
  elected : ∀ t < N, IsElected w (c t) (k t)
  step : ∀ t < N, c (t + 1) = elect w (c t) (k t)

theorem sum_elect (w c : ι → ℤ) (k : ι) : ∑ i, elect w c k i = ∑ i, c i := by
  simp [elect, sum_sub_distrib, sum_add_distrib, total]

/-- Each election elects one member. -/
theorem sum_count (k : ℕ → ι) (s n : ℕ) : ∑ i, (count k i s n : ℤ) = n := by
  induction n with
  | zero => simp [count_zero]
  | succ n ih =>
    simp only [count_succ, Nat.cast_add, sum_add_distrib, ih, Nat.cast_ite, Nat.cast_one, Nat.cast_zero,
      sum_ite_eq, mem_univ, ite_true]

namespace IsRun

variable {w : ι → ℤ} {c : ℕ → ι → ℤ} {k : ℕ → ι} {N : ℕ}

/-- A run extended by one more election of an elected member. -/
theorem snoc (h : IsRun w c k N) {k' : ι} (he : IsElected w (c N) k') :
    IsRun w (fun t => if t ≤ N then c t else elect w (c N) k') (fun t => if t < N then k t else k') (N + 1) := by
  constructor
  · intro t ht
    rcases Nat.lt_succ_iff_lt_or_eq.mp ht with ht | rfl
    · simpa [ht, ht.le] using h.elected t ht
    · simpa using he
  · intro t ht
    rcases Nat.lt_succ_iff_lt_or_eq.mp ht with ht | rfl
    · simp [ht, ht.le, show t + 1 ≤ N by omega, h.step t ht]
    · simp

theorem sum_eq (h : IsRun w c k N) {t : ℕ} (ht : t ≤ N) : ∑ i, c t i = ∑ i, c 0 i := by
  induction t with
  | zero => rfl
  | succ t ih => rw [h.step t (by omega), sum_elect, ih (by omega)]

/-- The run lemma: `n` elections after `s` add `n` weights and take the total weight once per
    election. -/
theorem apply_eq (h : IsRun w c k N) {s n : ℕ} (hn : s + n ≤ N) (i : ι) :
    c (s + n) i = c s i + n * w i - total w * count k i s n := by
  induction n with
  | zero => simp [count_zero]
  | succ n ih =>
    rw [← add_assoc, h.step (s + n) (by omega), elect, ih (by omega), count_succ]
    split_ifs with h₁ h₂ h₂
    · push_cast; ring
    · exact absurd h₁.symm h₂
    · exact absurd h₂.symm h₁
    · push_cast; ring

/-- From a zero sum and nonnegative weights, no priority reaches minus the total weight. -/
theorem lower (h : IsRun w c k N) (hw : ∀ i, 0 ≤ w i) (hT : 0 < total w) (hs : ∑ i, c 0 i = 0)
    (h₀ : ∀ i, -total w < c 0 i) {t : ℕ} (ht : t ≤ N) (i : ι) : -total w < c t i := by
  induction t generalizing i with
  | zero => exact h₀ i
  | succ t ih =>
    rw [h.step t (by omega), elect]
    split_ifs with hik
    · subst hik
      have := elected_pos (h.elected t (by omega)) (by rw [h.sum_eq (by omega), hs]) hT
      omega
    · have := ih (by omega) i
      have := hw i
      omega

/-- A run from all zeros is back at all zeros after as many elections as the total weight: no member
    is elected more often than its weight, and together they are elected the total weight. -/
theorem return_zero (h : IsRun w c k N) (hw : ∀ i, 0 ≤ w i) (hT : 0 < total w) (hN : (total w).toNat ≤ N)
    (h₀ : c 0 = 0) : c (total w).toNat = 0 := by
  set T := total w with hTdef
  have hTn : ((T.toNat : ℕ) : ℤ) = T := Int.toNat_of_nonneg hT.le
  have happly : ∀ i, c T.toNat i = T * w i - T * count k i 0 T.toNat := fun i => by
    have := h.apply_eq (show 0 + T.toNat ≤ N by omega) i
    rw [zero_add, h₀, hTn] at this
    simpa [mul_comm] using this
  -- Each member is elected at most its weight: its priority stays above `-T`.
  have hle : ∀ i ∈ (univ : Finset ι), (count k i 0 T.toNat : ℤ) ≤ w i := fun i _ => by
    have hl := h.lower hw hT (by simp [h₀]) (fun j => by simp [h₀]; omega) hN i
    rw [happly i, ← mul_sub] at hl
    by_contra hc
    have : T * (w i - count k i 0 T.toNat) ≤ T * (-1) := mul_le_mul_of_nonneg_left (by omega) hT.le
    linarith
  have hsum : ∑ i, (count k i 0 T.toNat : ℤ) = ∑ i, w i := by rw [sum_count, hTn, hTdef, total]
  have heq := (sum_eq_sum_iff_of_le hle).mp hsum
  funext i
  rw [happly i, heq i (mem_univ i), sub_self]
  rfl

/-- The window rule: a run that returns to its priorities after `n` elections elected each member
    its weight times `n` divided by the total weight. -/
theorem count_mul (h : IsRun w c k N) {s n : ℕ} (hn : s + n ≤ N) (hr : c (s + n) = c s) (i : ι) :
    total w * count k i s n = n * w i := by
  have := h.apply_eq hn i
  rw [hr] at this
  linarith

/-- A run from all zeros elects each member exactly its weight in its first total-weight elections. -/
theorem count_eq_weight (h : IsRun w c k N) (hw : ∀ i, 0 ≤ w i) (hT : 0 < total w) (hN : (total w).toNat ≤ N)
    (h₀ : c 0 = 0) (i : ι) : (count k i 0 (total w).toNat : ℤ) = w i := by
  have hr : c (0 + (total w).toNat) = c 0 := by rw [zero_add, h.return_zero hw hT hN h₀, h₀]
  have := h.count_mul (by omega) hr i
  rw [Int.toNat_of_nonneg hT.le] at this
  exact mul_left_cancel₀ hT.ne' (by linarith)

end IsRun

end Rotation
