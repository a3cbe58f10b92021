import Mathlib.Data.List.Basic

/-! Cutting a list into chunks of `p` elements: the `i`-th chunk starts at `i * p`, and as many chunks as
    `(n + p - 1) / p`, the count of a list of `n` elements, put the list back together. -/

namespace Chunks

variable {α : Type}

/-- The `i`-th chunk of `p` elements of `l`; the last one may be shorter, and past the end they are empty. -/
def chunk (p : ℕ) (l : List α) (i : ℕ) : List α := (l.drop (i * p)).take p

/-- The number of chunks of `p` elements that hold `n` elements. -/
def count (p n : ℕ) : ℕ := (n + p - 1) / p

theorem flatten_map_chunk (p : ℕ) (l : List α) (n : ℕ) :
    ((List.range n).map (chunk p l)).flatten = l.take (n * p) := by
  induction n with
  | zero => simp
  | succ n ih =>
    rw [List.range_succ, List.map_append, List.flatten_append, ih, List.map_singleton, List.flatten_singleton,
      chunk, Nat.succ_mul, List.take_add]

theorem le_count_mul {p : ℕ} (hp : 0 < p) (n : ℕ) : n ≤ count p n * p := by
  have h := Nat.lt_div_mul_add (a := n + p - 1) hp
  unfold count
  omega

theorem count_mul_lt {p : ℕ} (hp : 0 < p) (n : ℕ) : count p n * p < n + p := by
  have h := Nat.div_mul_le_self (n + p - 1) p
  unfold count
  omega

/-- The chunks put the list back together. -/
theorem flatten_chunks {p : ℕ} (hp : 0 < p) (l : List α) :
    ((List.range (count p l.length)).map (chunk p l)).flatten = l := by
  rw [flatten_map_chunk, List.take_of_length_le (le_count_mul hp _)]

theorem length_chunk_le (p : ℕ) (l : List α) (i : ℕ) : (chunk p l i).length ≤ p := by
  simp only [chunk, List.length_take]
  exact Nat.min_le_left _ _

/-- A chunk is full exactly when the list reaches its end. -/
theorem length_chunk_eq_iff {p : ℕ} (hp : 0 < p) {l : List α} {i : ℕ} :
    (chunk p l i).length = p ↔ (i + 1) * p ≤ l.length := by
  simp only [chunk, List.length_take, List.length_drop, Nat.succ_mul]
  omega

end Chunks
