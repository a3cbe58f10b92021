import CometBFT.Mempool.Reap

/-! The mempool's representation invariant over every run: the map holds exactly the keys of the listed
    transactions, each pointing to the element that holds its transaction; no key is listed twice; the
    byte counter is the sum of the listed transactions' lengths; and the list and its bytes are within
    `Size` and `MaxTxsBytes`. Each entry point keeps it, so every mempool reached from `NewCListMempool`
    has it; after `Update` no committed transaction is listed. -/

namespace CometBFT

namespace Mempool

open CListMempool

/-- The representation invariant of a `CListMempool`. -/
structure Inv (cfg : MempoolConfig) (key : Tx → TxKey) (mem : CListMempool) : Prop where
  nodup : (mem.txs.map fun e => key e.2.tx).Nodup
  map_mem : ∀ k e, mem.txsMap k = some e → e ∈ mem.txs ∧ key e.2.tx = k
  mem_map : ∀ e ∈ mem.txs, mem.txsMap (key e.2.tx) = some e
  bytes : mem.txsBytes = (mem.txs.map fun e => (e.2.tx.length : Int)).sum
  size_le : mem.size ≤ cfg.size.toInt
  bytes_le : mem.txsBytes ≤ cfg.maxTxsBytes.toInt

section

variable {cfg : MempoolConfig} {key : Tx → TxKey} {mem mem' : CListMempool}

/-- The invariant reads the list, the map and the counter only. -/
theorem Inv.frame (h : Inv cfg key mem) (htxs : mem'.txs = mem.txs) (hmap : mem'.txsMap = mem.txsMap)
    (hbytes : mem'.txsBytes = mem.txsBytes) : Inv cfg key mem' where
  nodup := by rw [htxs]; exact h.nodup
  map_mem k e he := by rw [htxs]; exact h.map_mem k e (hmap ▸ he)
  mem_map e he := by rw [hmap]; exact h.mem_map e (htxs ▸ he)
  bytes := by rw [hbytes, htxs]; exact h.bytes
  size_le := by unfold size; rw [htxs]; exact h.size_le
  bytes_le := hbytes ▸ h.bytes_le

theorem Inv.txsBytes_nonneg (h : Inv cfg key mem) : 0 ≤ mem.txsBytes := by
  rw [h.bytes]
  exact List.sum_nonneg fun _ hx => by
    obtain ⟨e, -, rfl⟩ := List.mem_map.mp hx
    exact Int.natCast_nonneg _

/-- Two listed elements with one key are one element. -/
theorem Inv.eq_of_key_eq (h : Inv cfg key mem) {e₁ e₂ : CElement} (h₁ : e₁ ∈ mem.txs) (h₂ : e₂ ∈ mem.txs)
    (hk : key e₁.2.tx = key e₂.2.tx) : e₁ = e₂ := by
  have := h.mem_map e₁ h₁
  rw [hk, h.mem_map e₂ h₂] at this
  exact (Option.some.inj this).symm

theorem Inv.key_ne_of_txsMap_eq_none (h : Inv cfg key mem) {k : TxKey} (hk : mem.txsMap k = none) :
    ∀ e ∈ mem.txs, key e.2.tx ≠ k := by
  intro e he hek
  rw [← hek, h.mem_map e he] at hk
  cases hk

/-! ### One lemma per update of the list -/

theorem Inv.addTx (h : Inv cfg key mem) (memTx : MempoolTx) (hsize : mem.size < cfg.size.toInt)
    (hbytes : mem.txsBytes + memTx.tx.length ≤ cfg.maxTxsBytes.toInt) : Inv cfg key (addTx key mem memTx).1 := by
  unfold CListMempool.addTx
  split_ifs with hin
  · exact h
  have hnone : mem.txsMap (key memTx.tx) = none := by
    simpa [inMempool, Option.isSome_iff_ne_none] using hin
  -- the new key is in no listed element
  have hnew := h.key_ne_of_txsMap_eq_none hnone
  dsimp only
  refine ⟨?_, fun k e he => ?_, fun e he => ?_, ?_, ?_, hbytes⟩
  · rw [List.map_append, List.nodup_append]
    refine ⟨h.nodup, List.nodup_singleton _, fun a ha b hb => ?_⟩
    obtain ⟨e, he, rfl⟩ := List.mem_map.mp ha
    rw [List.map_cons, List.map_nil, List.mem_singleton] at hb
    exact hb ▸ hnew e he
  · dsimp only at he ⊢
    by_cases hk : k = key memTx.tx
    · subst hk
      rw [Function.update_self, Option.some.injEq] at he
      subst he
      exact ⟨List.mem_append_right _ List.mem_cons_self, rfl⟩
    · rw [Function.update_of_ne hk] at he
      obtain ⟨hm, hke⟩ := h.map_mem k e he
      exact ⟨List.mem_append_left _ hm, hke⟩
  · dsimp only at he ⊢
    rcases List.mem_append.mp he with he | he
    · rw [Function.update_of_ne (hnew e he)]
      exact h.mem_map e he
    · rw [List.mem_singleton] at he
      subst he
      exact Function.update_self _ _ _
  · simp only [List.map_append, List.sum_append, List.map_cons, List.map_nil, List.sum_cons, List.sum_nil,
      add_zero, h.bytes]
  · simp only [size, List.length_append, List.length_cons, List.length_nil] at hsize ⊢
    omega

theorem Inv.removeTxByKey (h : Inv cfg key mem) (k : TxKey) : Inv cfg key (removeTxByKey mem k).1 := by
  unfold CListMempool.removeTxByKey
  split
  · exact h
  rename_i elem helem
  obtain ⟨hmem, hk⟩ := h.map_mem k elem helem
  have hnd : mem.txs.Nodup := h.nodup.of_map _
  refine ⟨h.nodup.sublist (List.erase_sublist.map _), fun k' e he => ?_, fun e he => ?_, ?_, ?_, ?_⟩
  · dsimp only at he ⊢
    by_cases hk' : k' = k
    · subst hk'
      rw [Function.update_self] at he
      cases he
    · rw [Function.update_of_ne hk'] at he
      obtain ⟨hm, rfl⟩ := h.map_mem k' e he
      refine ⟨hnd.mem_erase_iff.mpr ⟨?_, hm⟩, rfl⟩
      rintro rfl
      exact hk' hk
  · dsimp only at he ⊢
    obtain ⟨hne, hm⟩ := hnd.mem_erase_iff.mp he
    have hke : key e.2.tx ≠ k := fun hke => hne (h.eq_of_key_eq hm hmem (hke.trans hk.symm))
    rw [Function.update_of_ne hke]
    exact h.mem_map e hm
  · -- the element's length leaves the counter and the sum alike
    have hsum := ((List.perm_cons_erase hmem).map fun e : CElement => (e.2.tx.length : Int)).sum_eq
    rw [List.map_cons, List.sum_cons] at hsum
    simp only
    rw [h.bytes, hsum]
    ring
  · have := List.length_erase_le (a := elem) (l := mem.txs)
    have := h.size_le
    simp only [size] at this ⊢
    omega
  · have := h.bytes_le
    have : (0 : Int) ≤ elem.2.tx.length := Int.natCast_nonneg _
    simp only
    omega

theorem inv_flush (hcfg : cfg.validateBasic = .ok ()) (mem : CListMempool) : Inv cfg key (flush mem) := by
  obtain ⟨hsize, hbytes, -, -⟩ := validateBasic_eq_ok.mp hcfg
  exact ⟨List.nodup_nil, (fun _ _ he => by cases he), (fun _ he => by cases he), rfl, hsize, hbytes⟩

theorem inv_new (hcfg : cfg.validateBasic = .ok ()) (height : Int64) (preCheck : Option (Tx → Bool))
    (postCheck : Option (Tx → CheckTxResponse → Bool)) : Inv cfg key (CListMempool.new cfg height preCheck postCheck) := by
  obtain ⟨hsize, hbytes, -, -⟩ := validateBasic_eq_ok.mp hcfg
  exact ⟨List.nodup_nil, (fun _ _ he => by cases he), (fun _ he => by cases he), rfl, hsize, hbytes⟩

/-! ### The entry points -/

theorem uint64_of_mem {x : Int} (h₀ : 0 ≤ x) (h₁ : x < 2 ^ 64) : uint64 x = x := Int.emod_eq_of_lt h₀ h₁

/-- A transaction that fits `isFull` leaves room in the list and in the bytes, when no `uint64` sum wraps. -/
theorem isFull_eq_ok {n : Int} (h : isFull cfg mem n = .ok ()) (hn : 0 ≤ n) (hn' : n < 2 ^ 63)
    (hb : 0 ≤ mem.txsBytes) (hb' : mem.txsBytes ≤ cfg.maxTxsBytes.toInt) :
    mem.size < cfg.size.toInt ∧ n + mem.txsBytes ≤ cfg.maxTxsBytes.toInt := by
  unfold isFull at h
  split_ifs at h with hfull
  have hmax := Int64.toInt_lt cfg.maxTxsBytes
  rw [not_or, not_le, not_lt, uint64_of_mem hn (by omega), uint64_of_mem hb (by omega),
    uint64_of_mem (by omega) (by omega), uint64_of_mem (by omega) (by omega)] at hfull
  exact hfull

theorem Inv.resCbFirstTime (h : Inv cfg key mem) {tx : Tx} (htx : (tx.length : Int) < 2 ^ 63)
    (res : CheckTxResponse) : Inv cfg key (resCbFirstTime cfg key mem tx res) := by
  unfold CListMempool.resCbFirstTime
  split_ifs with hrej
  · exact h.frame (by simp) (by simp) (by simp)
  split
  · -- full after all: only the cache changes
    exact h.frame rfl rfl rfl
  · rename_i hfull
    obtain ⟨hsize, hbytes⟩ := isFull_eq_ok hfull (Int.natCast_nonneg _) htx h.txsBytes_nonneg h.bytes_le
    exact h.addTx _ hsize (by rw [add_comm]; exact hbytes)

/-- `CheckTx` changes nothing but the cache, and sends a request only for a transaction within
    `MaxTxBytes`. -/
theorem checkTx_spec {tx : Tx} {appConnErr checkTxAsyncErr : Bool} {r : Except MempoolError Unit}
    (h : checkTx cfg key mem tx appConnErr checkTxAsyncErr = (mem', r)) :
    mem'.txs = mem.txs ∧ mem'.txsMap = mem.txsMap ∧ mem'.txsBytes = mem.txsBytes ∧
      (r = .ok () → (tx.length : Int) ≤ cfg.maxTxBytes.toInt) := by
  have hadd : addToCache key mem tx =
      ({ mem with cache := (mem.cache.push (key tx)).1 }, (mem.cache.push (key tx)).2) := rfl
  unfold CListMempool.checkTx at h
  simp only [hadd] at h
  split at h
  · obtain ⟨rfl, rfl⟩ := Prod.mk.inj h
    exact ⟨rfl, rfl, rfl, fun hr => by cases hr⟩
  split_ifs at h with htoo <;> obtain ⟨rfl, rfl⟩ := Prod.mk.inj h
  · exact ⟨rfl, rfl, rfl, fun hr => by cases hr⟩
  -- past the size check every branch has a transaction within `MaxTxBytes`
  all_goals exact ⟨rfl, rfl, rfl, fun _ => not_lt.mp htoo⟩

theorem globalCb_check {tx : Tx} {res : CheckTxResponse} (h : globalCb cfg key mem .check tx res = some mem') :
    mem' = resCbFirstTime cfg key mem tx res := by
  cases hc : mem.recheckCursor with
  | none =>
    simp only [globalCb, hc, Option.some.injEq] at h
    exact h.symm
  | some cursor => simp only [globalCb, hc, reduceCtorEq] at h

theorem globalCb_recheck {tx : Tx} {res : CheckTxResponse} (h : globalCb cfg key mem .recheck tx res = some mem') :
    mem' = mem ∨ ∃ cursor, mem' = resCbRecheck cfg key mem cursor tx res := by
  cases hc : mem.recheckCursor with
  | none =>
    simp only [globalCb, hc, Option.some.injEq] at h
    exact .inl h.symm
  | some cursor =>
    simp only [globalCb, hc, Option.some.injEq] at h
    exact .inr ⟨cursor, h.symm⟩

theorem Inv.resCbRecheck (h : Inv cfg key mem) (cursor : List CElement) (tx : Tx) (res : CheckTxResponse) :
    Inv cfg key (resCbRecheck cfg key mem cursor tx res) := by
  unfold CListMempool.resCbRecheck
  split
  · exact h.frame rfl rfl rfl
  rename_i memTx rest _
  -- the cursor moves on; the list changes only by `RemoveTxByKey`, when the application now rejects it
  have hm : Inv cfg key (if res.code ≠ codeTypeOK ∨ !mem.postCheckOk tx res then
      tryRemoveFromCache cfg key (CListMempool.removeTxByKey mem (key memTx.tx)).1 tx else mem) := by
    split_ifs
    · exact (h.removeTxByKey (key memTx.tx)).frame (by simp) (by simp) (by simp)
    · exact h
  exact hm.frame rfl rfl rfl

theorem Inv.updateTx (h : Inv cfg key mem) (txc : Tx × UInt32) : Inv cfg key (updateTx cfg key mem txc) := by
  unfold CListMempool.updateTx
  apply Inv.removeTxByKey
  split_ifs
  · exact h.frame rfl rfl rfl
  · exact h.frame (by simp) (by simp) (by simp)

theorem Inv.foldl_updateTx (h : Inv cfg key mem) (l : List (Tx × UInt32)) :
    Inv cfg key (l.foldl (CListMempool.updateTx cfg key) mem) := by
  induction l generalizing mem with
  | nil => exact h
  | cons txc l ih => exact ih (h.updateTx txc)

theorem Inv.update {height : Int64} {txs : List Tx} {txResults : List UInt32} {preCheck : Option (Tx → Bool)}
    {postCheck : Option (Tx → CheckTxResponse → Bool)} (h : Inv cfg key mem)
    (hu : CListMempool.update cfg key mem height txs txResults preCheck postCheck = some mem') :
    Inv cfg key mem' := by
  unfold CListMempool.update at hu
  have h₀ : Inv cfg key
      ({ mem with height := height, preCheck := preCheck.or mem.preCheck, postCheck := postCheck.or mem.postCheck }) :=
    h.frame rfl rfl rfl
  have h₁ := h₀.foldl_updateTx (txs.zip txResults)
  split_ifs at hu with hlen
  cases hu
  split_ifs
  · exact h₁.frame rfl rfl rfl
  · exact h₁

/-! ### `Update` removes what was committed -/

theorem Inv.removeTxByKey_key_ne (h : Inv cfg key mem) (k : TxKey) :
    ∀ e ∈ (CListMempool.removeTxByKey mem k).1.txs, key e.2.tx ≠ k := by
  unfold CListMempool.removeTxByKey
  split
  · rename_i hk
    exact h.key_ne_of_txsMap_eq_none hk
  rename_i elem helem
  obtain ⟨hmem, hk⟩ := h.map_mem k elem helem
  intro e he hke
  obtain ⟨hne, hm⟩ := (h.nodup.of_map _).mem_erase_iff.mp he
  exact hne (h.eq_of_key_eq hm hmem (hke.trans hk.symm))

theorem removeTxByKey_txs_subset (mem : CListMempool) (k : TxKey) : (removeTxByKey mem k).1.txs ⊆ mem.txs := by
  unfold CListMempool.removeTxByKey
  split
  · exact List.Subset.refl _
  · exact List.erase_subset

theorem updateTx_txs_subset (txc : Tx × UInt32) : (updateTx cfg key mem txc).txs ⊆ mem.txs := by
  unfold CListMempool.updateTx
  refine List.Subset.trans (removeTxByKey_txs_subset _ _) ?_
  split_ifs <;> simp [List.Subset.refl]

theorem foldl_updateTx_txs_subset (l : List (Tx × UInt32)) : (l.foldl (updateTx cfg key) mem).txs ⊆ mem.txs := by
  induction l generalizing mem with
  | nil => exact List.Subset.refl _
  | cons txc l ih => exact List.Subset.trans ih (updateTx_txs_subset txc)

theorem Inv.updateTx_key_ne (h : Inv cfg key mem) (txc : Tx × UInt32) :
    ∀ e ∈ (CListMempool.updateTx cfg key mem txc).txs, key e.2.tx ≠ key txc.1 := by
  unfold CListMempool.updateTx
  apply Inv.removeTxByKey_key_ne
  split_ifs
  · exact h.frame rfl rfl rfl
  · exact h.frame (by simp) (by simp) (by simp)

/-- After the loop of `Update` no listed transaction has the key of a committed one: each iteration removes
    its key and the later ones only remove. -/
theorem Inv.foldl_updateTx_key_ne (h : Inv cfg key mem) (l : List (Tx × UInt32)) :
    ∀ txc ∈ l, ∀ e ∈ (l.foldl (CListMempool.updateTx cfg key) mem).txs, key e.2.tx ≠ key txc.1 := by
  induction l generalizing mem with
  | nil => intro txc htxc; cases htxc
  | cons txc₀ l ih =>
    intro txc htxc e he
    rcases List.mem_cons.mp htxc with rfl | htxc
    · exact h.updateTx_key_ne txc e (foldl_updateTx_txs_subset l he)
    · exact ih (h.updateTx txc₀) txc htxc e he

theorem Inv.update_not_mem {height : Int64} {txs : List Tx} {txResults : List UInt32}
    {preCheck : Option (Tx → Bool)} {postCheck : Option (Tx → CheckTxResponse → Bool)} (h : Inv cfg key mem)
    (hu : CListMempool.update cfg key mem height txs txResults preCheck postCheck = some mem') :
    ∀ tx ∈ txs, tx ∉ mem'.txs.map (·.2.tx) := by
  unfold CListMempool.update at hu
  have h₀ : Inv cfg key
      ({ mem with height := height, preCheck := preCheck.or mem.preCheck, postCheck := postCheck.or mem.postCheck }) :=
    h.frame rfl rfl rfl
  split_ifs at hu with hlen
  cases hu
  intro tx htx hmem
  obtain ⟨e, he, rfl⟩ := List.mem_map.mp hmem
  -- every committed transaction has a result, so the loop reaches it
  have hzip : e.2.tx ∈ (txs.zip txResults).map Prod.fst := by
    rw [List.map_fst_zip (by omega)]
    exact htx
  obtain ⟨txc, hxc, hfst⟩ := List.mem_map.mp hzip
  have hne := h₀.foldl_updateTx_key_ne _ txc hxc e
  -- `recheckTxs` only sets the cursor
  split_ifs at he <;> exact hne he (congrArg key hfst.symm)

/-! ### Every run -/

/-- Every call keeps the invariant. -/
theorem Step.inv (hcfg : cfg.validateBasic = .ok ()) (h : Inv cfg key mem) (hs : Step cfg key mem mem') :
    Inv cfg key mem' := by
  cases hs with
  | checkTxError hc =>
    obtain ⟨h₁, h₂, h₃, -⟩ := checkTx_spec hc
    exact h.frame h₁ h₂ h₃
  | checkTx hc hg =>
    obtain ⟨h₁, h₂, h₃, hlen⟩ := checkTx_spec hc
    rw [globalCb_check hg]
    refine (h.frame h₁ h₂ h₃).resCbFirstTime ?_ _
    have := hlen rfl
    have := Int64.toInt_lt cfg.maxTxBytes
    omega
  | update hu => exact h.update hu
  | recheck hr =>
    rcases globalCb_recheck hr with rfl | ⟨cursor, rfl⟩
    · exact h
    · exact h.resCbRecheck cursor _ _
  | removeTxByKey k => exact h.removeTxByKey k
  | flush => exact inv_flush hcfg _

theorem Reachable.inv (hcfg : cfg.validateBasic = .ok ()) (h : Reachable cfg key mem) : Inv cfg key mem := by
  induction h with
  | new height preCheck postCheck => exact inv_new hcfg height preCheck postCheck
  | step _ hs ih => exact hs.inv hcfg ih

/-! ### What every reachable mempool satisfies -/

/-- What holds of every mempool a run reaches: the representation invariant; no committed transaction listed
    after `Update`; and `ReapMaxBytesMaxGas` returning the longest prefix within the limits, when no gas is
    negative and the list's sums fit in `int64`. -/
structure Spec (cfg : MempoolConfig) (key : Tx → TxKey) (mem : CListMempool) : Prop where
  inv : Inv cfg key mem
  update_not_mem : ∀ height txs txResults preCheck postCheck mem',
    CListMempool.update cfg key mem height txs txResults preCheck postCheck = some mem' →
      ∀ tx ∈ txs, tx ∉ mem'.txs.map (·.2.tx)
  reap_longest : (∀ e ∈ mem.txs, 0 ≤ e.2.gasWanted.toInt) →
    (mem.txs.map fun e => (protoSize e.2.tx : Int)).sum ≤ maxInt64 →
    (mem.txs.map (·.2.gasWanted.toInt)).sum ≤ maxInt64 → ∀ maxBytes maxGas : Int64,
      ∃ n, mem.reapMaxBytesMaxGas maxBytes maxGas = ((mem.txs.map (·.2)).take n).map (·.tx) ∧
        Within maxBytes.toInt maxGas.toInt 0 0 ((mem.txs.map (·.2)).take n) ∧
        ∀ k, n < k → k ≤ mem.txs.length → ¬Within maxBytes.toInt maxGas.toInt 0 0 ((mem.txs.map (·.2)).take k)

theorem reachable_spec (hcfg : cfg.validateBasic = .ok ()) (hreach : Reachable cfg key mem) : Spec cfg key mem where
  inv := hreach.inv hcfg
  update_not_mem _ _ _ _ _ _ hu := (hreach.inv hcfg).update_not_mem hu
  reap_longest hgas hsize hgasSum maxBytes maxGas := reapMaxBytesMaxGas_spec mem maxBytes maxGas hgas hsize hgasSum

end

/-- A new mempool after `CheckTx` of the transaction `[1]`, which the application accepts with gas `gas`. -/
theorem reachable_checkTx_first (gas : Int64) :
    Reachable defaultMempoolConfig id
      (resCbFirstTime defaultMempoolConfig id
        (checkTx defaultMempoolConfig id (CListMempool.new defaultMempoolConfig 0 none none) [1] false false).1
        [1] ⟨0, gas⟩) :=
  .step (.new 0 none none)
    (@Step.checkTx _ _ (CListMempool.new defaultMempoolConfig 0 none none) _ _ [1] false false ⟨0, gas⟩ rfl rfl)

theorem reachable_spec_checkTx :
    let mem := resCbFirstTime defaultMempoolConfig id
      (checkTx defaultMempoolConfig id (CListMempool.new defaultMempoolConfig 0 none none) [1] false false).1 [1] ⟨0, 5⟩
    mem.txs.map (·.2.tx) = [[1]] ∧ Spec defaultMempoolConfig id mem :=
  ⟨by decide, reachable_spec defaultMempoolConfig_validateBasic (reachable_checkTx_first 5)⟩

/-- The application answers gas `5` and then `MaxInt64 - 2`: with `maxGas = 10` the `int64` running sum of
    `ReapMaxBytesMaxGas` wraps below the limit, and the reap returns both transactions, over it. -/
theorem reapMaxBytesMaxGas_gas_wraps :
    ∃ mem, Reachable defaultMempoolConfig id mem ∧ mem.txs.map (·.2.gasWanted.toInt) = [5, maxInt64 - 2] ∧
      mem.reapMaxBytesMaxGas (-1) 10 = mem.txs.map (·.2.tx) ∧ ¬Within (-1) 10 0 0 (mem.txs.map (·.2)) := by
  let cfg := defaultMempoolConfig
  let mem₀ := CListMempool.new cfg 0 none none
  -- `CheckTx` of `[1]`, answered with gas `5`
  let mem₁ := resCbFirstTime cfg id (checkTx cfg id mem₀ [1] false false).1 [1] ⟨0, 5⟩
  have h₁ : Reachable cfg id mem₁ := reachable_checkTx_first 5
  -- then `CheckTx` of `[2]`, answered with gas `MaxInt64 - 2`
  let mem₂ := resCbFirstTime cfg id (checkTx cfg id mem₁ [2] false false).1 [2] ⟨0, 9223372036854775805⟩
  have h₂ : Reachable cfg id mem₂ :=
    .step h₁ (@Step.checkTx _ _ mem₁ _ mem₂ [2] false false ⟨0, 9223372036854775805⟩ rfl rfl)
  exact ⟨mem₂, h₂, by decide, by decide, by decide⟩

/-- `ReapMaxTxs(0)` on a mempool that holds one transaction returns that transaction. -/
theorem reapMaxTxs_zero_returns_one :
    ∃ mem, Reachable defaultMempoolConfig id mem ∧ mem.txs.length = 1 ∧
      mem.reapMaxTxs 0 = mem.txs.map (·.2.tx) :=
  ⟨_, reachable_checkTx_first 5, by decide, by decide⟩

end Mempool

end CometBFT
