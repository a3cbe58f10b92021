import CometBFT.Mempool.CListMempool

/-! What `ReapMaxBytesMaxGas` returns. Its loop stops at the first transaction that would take the running
    size or gas over a limit. When no gas is negative a sum over a limit stays over it as transactions are
    added, so the loop returns the longest prefix of the list within the limits. Its sums are `int64`: this
    holds while they fit. -/

namespace CometBFT

namespace Mempool

/-- The sizes and the gas of `txs`, added to `size` and `gas` already taken, are within `maxBytes` and
    `maxGas`; a negative limit is no limit. -/
def Within (maxBytes maxGas size gas : Int) (txs : List MempoolTx) : Prop :=
  (0 ≤ maxBytes → size + (txs.map fun m => (protoSize m.tx : Int)).sum ≤ maxBytes) ∧
    (0 ≤ maxGas → gas + (txs.map (·.gasWanted.toInt)).sum ≤ maxGas)

instance (maxBytes maxGas size gas : Int) (txs : List MempoolTx) :
    Decidable (Within maxBytes maxGas size gas txs) :=
  inferInstanceAs (Decidable (_ ∧ _))

/-- The running sums of the loop from `size` and `gas` over `txs` fit in `int64`, and no gas is negative. -/
structure Fits (size gas : Int) (txs : List MempoolTx) : Prop where
  size_nonneg : 0 ≤ size
  gas_nonneg : 0 ≤ gas
  gasWanted_nonneg : ∀ m ∈ txs, 0 ≤ m.gasWanted.toInt
  size_le : size + (txs.map fun m => (protoSize m.tx : Int)).sum ≤ maxInt64
  gas_le : gas + (txs.map (·.gasWanted.toInt)).sum ≤ maxInt64

section

variable {maxBytes maxGas size gas : Int} {m : MempoolTx} {txs : List MempoolTx}

theorem within_cons :
    Within maxBytes maxGas size gas (m :: txs) ↔
      Within maxBytes maxGas (size + protoSize m.tx) (gas + m.gasWanted.toInt) txs := by
  simp only [Within, List.map_cons, List.sum_cons, add_assoc]

theorem sum_protoSize_nonneg (txs : List MempoolTx) : 0 ≤ (txs.map fun m => (protoSize m.tx : Int)).sum :=
  List.sum_nonneg fun _ hx => by
    obtain ⟨m, -, rfl⟩ := List.mem_map.mp hx
    exact Int.natCast_nonneg _

theorem sum_gasWanted_nonneg (h : ∀ m ∈ txs, 0 ≤ m.gasWanted.toInt) : 0 ≤ (txs.map (·.gasWanted.toInt)).sum :=
  List.sum_nonneg fun _ hx => by
    obtain ⟨m, hm, rfl⟩ := List.mem_map.mp hx
    exact h m hm

/-- Sums within the limits are within them before their last terms, when no term is negative. -/
theorem Within.nil (h : Within maxBytes maxGas size gas txs) (hgas : ∀ m ∈ txs, 0 ≤ m.gasWanted.toInt) :
    Within maxBytes maxGas size gas [] := by
  have hs := sum_protoSize_nonneg txs
  have hg := sum_gasWanted_nonneg hgas
  simp only [Within, List.map_nil, List.sum_nil, add_zero]
  exact ⟨fun hb => by linarith [h.1 hb], fun hb => by linarith [h.2 hb]⟩

theorem Fits.cons (h : Fits size gas (m :: txs)) :
    Fits (size + protoSize m.tx) (gas + m.gasWanted.toInt) txs where
  size_nonneg := by have := h.size_nonneg; omega
  gas_nonneg := by have := h.gas_nonneg; have := h.gasWanted_nonneg m List.mem_cons_self; omega
  gasWanted_nonneg x hx := h.gasWanted_nonneg x (List.mem_cons_of_mem m hx)
  size_le := by have := h.size_le; simp only [List.map_cons, List.sum_cons] at this; linarith
  gas_le := by have := h.gas_le; simp only [List.map_cons, List.sum_cons] at this; linarith

end

/-! ### The loop's `int64` sums -/

theorem gt_neg_one_iff {x : Int64} : x > -1 ↔ 0 ≤ x.toInt := by
  have : (-1 : Int64).toInt = -1 := by decide
  rw [gt_iff_lt, Int64.lt_iff_toInt_lt, this]
  omega

theorem toInt_add_of_mem {a b : Int64} (h₁ : minInt64 ≤ a.toInt + b.toInt) (h₂ : a.toInt + b.toInt ≤ maxInt64) :
    (a + b).toInt = a.toInt + b.toInt := by
  rw [Int64.toInt_add]
  exact wrapInt64_of_mem h₁ h₂

theorem toInt_computeProtoSizeForTxs {tx : Tx} (h : (protoSize tx : Int) ≤ maxInt64) :
    (computeProtoSizeForTxs [tx]).toInt = protoSize tx := by
  simp only [computeProtoSizeForTxs, List.map_cons, List.map_nil, List.sum_cons, List.sum_nil, add_zero,
    Int64.toInt_ofNat']
  exact wrapInt64_of_mem (by simp only [minInt64]; omega) h

/-! ### The loop -/

/-- The loop from the sums `rs` and `tg` returns `n` transactions: every prefix up to them is within the
    limits and every longer one is not. -/
theorem reapLoop_spec {maxBytes maxGas : Int64} (ms : List MempoolTx) (rs tg : Int64)
    (hf : Fits rs.toInt tg.toInt ms) (hw : Within maxBytes.toInt maxGas.toInt rs.toInt tg.toInt []) :
    ∃ n, reapLoop maxBytes maxGas ms rs tg = (ms.take n).map (·.tx) ∧
      Within maxBytes.toInt maxGas.toInt rs.toInt tg.toInt (ms.take n) ∧
      ∀ k, n < k → k ≤ ms.length → ¬Within maxBytes.toInt maxGas.toInt rs.toInt tg.toInt (ms.take k) := by
  induction ms generalizing rs tg with
  | nil => exact ⟨0, rfl, hw, fun k hk hle => absurd hle (by simp only [List.length_nil]; omega)⟩
  | cons m rest ih =>
    have hrest := hf.cons
    have hsum := sum_protoSize_nonneg rest
    have hgsum := sum_gasWanted_nonneg hrest.gasWanted_nonneg
    -- the loop's sums are the exact ones
    have hds : (rs + computeProtoSizeForTxs [m.tx]).toInt = rs.toInt + protoSize m.tx := by
      have hle : (protoSize m.tx : Int) ≤ maxInt64 := by have := hf.size_le; simp at this; linarith [hf.size_nonneg]
      rw [toInt_add_of_mem, toInt_computeProtoSizeForTxs hle]
      all_goals rw [toInt_computeProtoSizeForTxs hle]
      · simp only [minInt64]; linarith [hf.size_nonneg, Int.natCast_nonneg (protoSize m.tx)]
      · have := hf.size_le; simp at this; linarith
    have hgs : (tg + m.gasWanted).toInt = tg.toInt + m.gasWanted.toInt := by
      have := hf.gas_le
      simp only [List.map_cons, List.sum_cons] at this
      exact toInt_add_of_mem (by simp only [minInt64]; linarith [hrest.gas_nonneg]) (by linarith)
    -- a transaction over a limit ends every longer prefix over it
    have hover : ¬Within maxBytes.toInt maxGas.toInt (rs.toInt + protoSize m.tx) (tg.toInt + m.gasWanted.toInt) [] →
        ∀ k, 0 < k → k ≤ (m :: rest).length →
          ¬Within maxBytes.toInt maxGas.toInt rs.toInt tg.toInt ((m :: rest).take k) := by
      intro hnot k hk _ hwk
      obtain ⟨k, rfl⟩ : ∃ k', k = k' + 1 := ⟨k - 1, by omega⟩
      rw [List.take_succ_cons, within_cons] at hwk
      exact hnot (hwk.nil fun x hx => hrest.gasWanted_nonneg x (List.mem_of_mem_take hx))
    simp only [reapLoop]
    by_cases hb : maxBytes > -1 ∧ rs + computeProtoSizeForTxs [m.tx] > maxBytes
    · rw [if_pos hb]
      refine ⟨0, rfl, by simpa using hw, hover fun hn => ?_⟩
      rw [gt_neg_one_iff, gt_iff_lt, Int64.lt_iff_toInt_lt, hds] at hb
      have := hn.1 hb.1
      simp only [List.map_nil, List.sum_nil, add_zero] at this
      omega
    rw [if_neg hb]
    by_cases hg : maxGas > -1 ∧ tg + m.gasWanted > maxGas
    · rw [if_pos hg]
      refine ⟨0, rfl, by simpa using hw, hover fun hn => ?_⟩
      rw [gt_neg_one_iff, gt_iff_lt, Int64.lt_iff_toInt_lt, hgs] at hg
      have := hn.2 hg.1
      simp only [List.map_nil, List.sum_nil, add_zero] at this
      omega
    rw [if_neg hg]
    -- both sums stay within their limits, so the loop goes on from the next transaction
    have hw' : Within maxBytes.toInt maxGas.toInt (rs + computeProtoSizeForTxs [m.tx]).toInt
        (tg + m.gasWanted).toInt [] := by
      rw [gt_neg_one_iff, gt_iff_lt, Int64.lt_iff_toInt_lt, not_and, not_lt] at hb hg
      simp only [Within, List.map_nil, List.sum_nil, add_zero]
      exact ⟨hb, hg⟩
    obtain ⟨n, hn, hwn, hmax⟩ := ih (rs + computeProtoSizeForTxs [m.tx]) (tg + m.gasWanted)
      (by rwa [hds, hgs]) hw'
    rw [hds, hgs] at hwn hmax
    refine ⟨n + 1, by rw [hn]; rfl, by rwa [List.take_succ_cons, within_cons], fun k hk hle => ?_⟩
    obtain ⟨k, rfl⟩ : ∃ k', k = k' + 1 := ⟨k - 1, by omega⟩
    rw [List.take_succ_cons, within_cons]
    exact hmax k (by omega) (by simpa using hle)

/-- `ReapMaxBytesMaxGas` returns the longest prefix of the list within the limits, when no gas is negative
    and the list's total size and gas fit in `int64`. -/
theorem reapMaxBytesMaxGas_spec (mem : CListMempool) (maxBytes maxGas : Int64)
    (hgas : ∀ e ∈ mem.txs, 0 ≤ e.2.gasWanted.toInt)
    (hsize : (mem.txs.map fun e => (protoSize e.2.tx : Int)).sum ≤ maxInt64)
    (hgasSum : (mem.txs.map (·.2.gasWanted.toInt)).sum ≤ maxInt64) :
    ∃ n, mem.reapMaxBytesMaxGas maxBytes maxGas = ((mem.txs.map (·.2)).take n).map (·.tx) ∧
      Within maxBytes.toInt maxGas.toInt 0 0 ((mem.txs.map (·.2)).take n) ∧
      ∀ k, n < k → k ≤ mem.txs.length → ¬Within maxBytes.toInt maxGas.toInt 0 0 ((mem.txs.map (·.2)).take k) := by
  have hf : Fits (0 : Int64).toInt (0 : Int64).toInt (mem.txs.map (·.2)) := by
    refine ⟨le_refl _, le_refl _, fun m hm => ?_, by simpa [Function.comp_def] using hsize,
      by simpa [Function.comp_def] using hgasSum⟩
    obtain ⟨e, he, rfl⟩ := List.mem_map.mp hm
    exact hgas e he
  have hw : Within maxBytes.toInt maxGas.toInt (0 : Int64).toInt (0 : Int64).toInt [] := by
    simp [Within]
  simpa only [CListMempool.reapMaxBytesMaxGas, Int64.toInt_zero, List.length_map] using reapLoop_spec (mem.txs.map (·.2)) 0 0 hf hw

/-! What `ReapMaxTxs` returns. Its loop tests the length before it appends, so it appends once more when the
    result already holds `max` transactions. -/

/-- From a result of at most `max + 1` transactions, the loop fills it up to `max + 1` from `ms`. -/
theorem reapMaxTxsLoop_eq (max : Int) (ms : List MempoolTx) (txs : List Tx) (h : (txs.length : Int) ≤ max + 1) :
    reapMaxTxsLoop max ms txs = txs ++ (ms.map (·.tx)).take ((max + 1).toNat - txs.length) := by
  induction ms generalizing txs with
  | nil => simp [reapMaxTxsLoop]
  | cons m ms ih =>
    rw [reapMaxTxsLoop]
    split_ifs with hle
    · have hlen : (txs ++ [m.tx]).length = txs.length + 1 := by simp
      have hk : (max + 1).toNat - txs.length = ((max + 1).toNat - (txs ++ [m.tx]).length) + 1 := by omega
      rw [ih (txs ++ [m.tx]) (by rw [hlen]; push_cast; omega), hk, List.map_cons, List.take_succ_cons,
        List.append_assoc, List.singleton_append]
    · have hk : (max + 1).toNat - txs.length = 0 := by omega
      rw [hk, List.take_zero, List.append_nil]

/-- `ReapMaxTxs(max)` with `max ≥ 0` returns the first `max + 1` transactions, and all of them for a
    negative `max`. -/
theorem reapMaxTxs_eq (mem : CListMempool) (max : Int64) :
    mem.reapMaxTxs max =
      (mem.txs.map (·.2.tx)).take (if max < 0 then mem.txs.length else max.toInt.toNat + 1) := by
  unfold CListMempool.reapMaxTxs
  have hmax : 0 ≤ max.toInt ∨ max < 0 := by
    rw [Int64.lt_iff_toInt_lt, Int64.toInt_zero]
    omega
  split_ifs with hneg
  · rw [reapMaxTxsLoop_eq _ _ _ (by simp; omega), List.nil_append, List.map_map,
      List.take_of_length_le (by simp), List.take_of_length_le (by simp)]
    rfl
  · have hpos : 0 ≤ max.toInt := hmax.resolve_right hneg
    rw [reapMaxTxsLoop_eq _ _ _ (by simp; omega), List.nil_append, List.map_map]
    congr 1
    simp only [List.length_nil, Nat.sub_zero]
    omega

end Mempool

end CometBFT
