import Mathlib.Data.List.Induction
import CometBFT.Lib.AList
import CometBFT.Mempool.CListMempool

/-! The LRU cache of transaction keys (`mempool/cache.go`) with its map and its list. The list is
    `container/list`, front first, its elements identities with their keys; `cacheMap` holds a key's
    element, as the Go map holds a pointer to it.

    The mempool model keeps an LRU cache as its list of keys (`TxCache.lru`). Each operation here acts on
    the keys of the list as `TxCache` does, as long as the map and the list agree. The list is in the order
    of the last `Push` of each key, so a full cache evicts the key pushed or refreshed longest ago. -/

namespace CometBFT.Mempool

/-- An element of the cache's list: its identity and the key it holds. -/
abbrev KeyElement := Nat × TxKey

/-- `LRUTxCache`. `nextElement` is the identity of the next element `PushBack` makes. -/
structure LRUTxCache where
  size : Int64
  cacheMap : AList fun _ : TxKey => KeyElement
  list : List KeyElement
  nextElement : Nat

/-- `NewLRUTxCache`. -/
def newLRUTxCache (cacheSize : Int64) : LRUTxCache := ⟨cacheSize, ∅, [], 0⟩

namespace LRUTxCache

/-- The keys of the list, front first. -/
def keys (c : LRUTxCache) : List TxKey := c.list.map (·.2)

/-- `Reset`. -/
def reset (c : LRUTxCache) : LRUTxCache := { c with cacheMap := ∅, list := [] }

/-- The eviction in `Push`: the front element leaves the map and the list. -/
def removeFront (c : LRUTxCache) : LRUTxCache :=
  match c.list with
  | [] => c
  | front :: rest => { c with cacheMap := c.cacheMap.erase front.2, list := rest }

/-- `Push`: a key already held moves to the back (`MoveToBack`) and the push fails; a new key first
    evicts the front element when the list holds `size` of them. -/
def push (c : LRUTxCache) (key : TxKey) : LRUTxCache × Bool :=
  match c.cacheMap.lookup key with
  | some moved => ({ c with list := c.list.erase moved ++ [moved] }, false)
  | none =>
    let c := if c.size.toInt ≤ c.list.length then c.removeFront else c
    let e : KeyElement := (c.nextElement, key)
    ({ c with list := c.list ++ [e], cacheMap := c.cacheMap.insert key e, nextElement := c.nextElement + 1 },
      true)

/-- `Remove`. -/
def remove (c : LRUTxCache) (key : TxKey) : LRUTxCache :=
  match c.cacheMap.lookup key with
  | some e => { c with cacheMap := c.cacheMap.erase key, list := c.list.erase e }
  | none => { c with cacheMap := c.cacheMap.erase key }

/-- `Has`, which does not count as a use of the key. -/
def has (c : LRUTxCache) (key : TxKey) : Bool := (c.cacheMap.lookup key).isSome

/-- The cache as the mempool model keeps it. -/
def toTxCache (c : LRUTxCache) : TxCache := .lru c.size c.keys

end LRUTxCache

/-- The calls on a cache. -/
inductive CacheOp
  | push (key : TxKey)
  | remove (key : TxKey)
  | has (key : TxKey)
  | reset
  deriving DecidableEq, Repr

/-- The mempool model's cache on a call. -/
def TxCache.step (c : TxCache) : CacheOp → TxCache
  | .push key => (c.push key).1
  | .remove key => c.remove key
  | .has _ => c
  | .reset => c.reset

namespace LRUTxCache

def step (c : LRUTxCache) : CacheOp → LRUTxCache
  | .push key => (c.push key).1
  | .remove key => c.remove key
  | .has _ => c
  | .reset => c.reset

def run (c : LRUTxCache) (ops : List CacheOp) : LRUTxCache := ops.foldl step c

@[simp]
theorem run_append_singleton (c : LRUTxCache) (ops : List CacheOp) (op : CacheOp) :
    c.run (ops ++ [op]) = (c.run ops).step op := by
  simp [run]

@[simp]
theorem push_size (c : LRUTxCache) (key : TxKey) : (c.push key).1.size = c.size := by
  unfold push
  split
  · rfl
  · dsimp only
    split <;> [(unfold removeFront; split <;> rfl); rfl]

@[simp]
theorem remove_size (c : LRUTxCache) (key : TxKey) : (c.remove key).size = c.size := by
  unfold remove
  split <;> rfl

@[simp]
theorem step_size (c : LRUTxCache) (op : CacheOp) : (c.step op).size = c.size := by
  cases op with
  | push key => exact push_size c key
  | remove key => exact remove_size c key
  | has => rfl
  | reset => rfl

@[simp]
theorem run_size (c : LRUTxCache) (ops : List CacheOp) : (c.run ops).size = c.size := by
  induction ops using List.reverseRecOn with
  | nil => rfl
  | append_singleton ops op ih => rw [run_append_singleton, step_size, ih]

/-! ## The map and the list agree -/

/-- The keys of the list are distinct, the map holds for a key the element of the list that holds it,
    and the list is no longer than `size`. -/
structure Inv (c : LRUTxCache) : Prop where
  nodup : c.keys.Nodup
  lookup_iff : ∀ k e, c.cacheMap.lookup k = some e ↔ e ∈ c.list ∧ e.2 = k
  length_le : (c.list.length : Int) ≤ c.size.toInt

section Agree
variable {c : LRUTxCache}

theorem Inv.nodup_list (h : Inv c) : c.list.Nodup := List.Nodup.of_map _ h.nodup

theorem Inv.lookup_eq_none (h : Inv c) {k : TxKey} : c.cacheMap.lookup k = none ↔ k ∉ c.keys := by
  constructor
  · intro hl hk
    obtain ⟨e, he, rfl⟩ := List.mem_map.mp hk
    rw [(h.lookup_iff e.2 e).mpr ⟨he, rfl⟩] at hl
    cases hl
  · intro hk
    cases hl : c.cacheMap.lookup k with
    | none => rfl
    | some e =>
      obtain ⟨he, rfl⟩ := (h.lookup_iff k e).mp hl
      exact absurd (List.mem_map_of_mem he) hk

/-- Erasing an element of a list whose keys are distinct erases its key from the keys. -/
theorem keys_erase {l : List KeyElement} (hnd : (l.map (·.2)).Nodup) {e : KeyElement} (he : e ∈ l) :
    (l.erase e).map (·.2) = (l.map (·.2)).erase e.2 := by
  induction l with
  | nil => cases he
  | cons x l ih =>
    rw [List.map_cons, List.nodup_cons] at hnd
    by_cases hx : x = e
    · subst hx
      simp
    · have he' : e ∈ l := (List.mem_cons.mp he).resolve_left (Ne.symm hx)
      have hk : x.2 ≠ e.2 := fun hk => hnd.1 (hk ▸ List.mem_map_of_mem he')
      rw [List.erase_cons_tail (by simpa using hx), List.map_cons, List.map_cons, List.erase_cons_tail
        (by simpa using hk), ih hnd.2 he']

theorem Inv.remove (h : Inv c) (key : TxKey) : Inv (c.remove key) := by
  unfold LRUTxCache.remove
  split
  · rename_i e hl
    obtain ⟨hmem, rfl⟩ := (h.lookup_iff _ e).mp hl
    refine ⟨?_, fun k e' => ?_, ?_⟩
    · simp only [keys]
      rw [keys_erase h.nodup hmem]
      exact h.nodup.erase _
    · by_cases hk : k = e.2
      · subst hk
        rw [AList.lookup_erase]
        simp only [reduceCtorEq, false_iff, not_and]
        intro he' hk'
        obtain ⟨hne, he''⟩ := h.nodup_list.mem_erase_iff.mp he'
        have hsame := (h.lookup_iff e.2 e').mpr ⟨he'', hk'⟩
        rw [hl, Option.some.injEq] at hsame
        exact hne hsame.symm
      · rw [AList.lookup_erase_ne hk, h.lookup_iff, h.nodup_list.mem_erase_iff]
        constructor
        · rintro ⟨he', rfl⟩
          exact ⟨⟨fun hee => hk (by rw [hee]), he'⟩, rfl⟩
        · rintro ⟨⟨-, he'⟩, rfl⟩
          exact ⟨he', rfl⟩
    · have hle := h.length_le
      have hlen := List.length_erase_of_mem hmem
      have hpos := List.length_pos_of_mem hmem
      simp only [hlen]
      omega
  · rename_i hl
    have hk := h.lookup_eq_none.mp hl
    refine ⟨h.nodup, fun k e => ?_, h.length_le⟩
    by_cases hkk : k = key
    · subst hkk
      rw [AList.lookup_erase]
      simp only [reduceCtorEq, false_iff, not_and]
      intro he hek
      exact hk (hek ▸ List.mem_map_of_mem he)
    · rw [AList.lookup_erase_ne hkk]
      exact h.lookup_iff k e

variable (hsize : 0 < c.size.toInt)
include hsize

theorem Inv.push (h : Inv c) (key : TxKey) : Inv (c.push key).1 := by
  unfold LRUTxCache.push
  split
  · rename_i moved hl
    obtain ⟨hmem, rfl⟩ := (h.lookup_iff _ moved).mp hl
    have hnd := h.nodup_list
    refine ⟨?_, fun k e => ?_, ?_⟩
    · simp only [keys, List.map_append, keys_erase h.nodup hmem, List.map_cons, List.map_nil]
      exact (h.nodup.erase _).append (List.nodup_singleton _) (by simp [List.Nodup.not_mem_erase h.nodup])
    · rw [h.lookup_iff, List.mem_append, hnd.mem_erase_iff, List.mem_singleton]
      constructor
      · rintro ⟨he, rfl⟩
        by_cases hem : e = moved
        · exact ⟨.inr hem, rfl⟩
        · exact ⟨.inl ⟨hem, he⟩, rfl⟩
      · rintro ⟨he | rfl, rfl⟩
        · exact ⟨he.2, rfl⟩
        · exact ⟨hmem, rfl⟩
    · simpa [List.length_erase_of_mem hmem, List.length_pos_of_mem hmem] using h.length_le
  · rename_i hl
    have hk : key ∉ c.keys := h.lookup_eq_none.mp hl
    -- the cache after the eviction, if there is one, still agrees and does not hold `key`
    have hc : Inv (if c.size.toInt ≤ c.list.length then c.removeFront else c) ∧
        key ∉ (if c.size.toInt ≤ c.list.length then c.removeFront else c).keys ∧
        ((if c.size.toInt ≤ c.list.length then c.removeFront else c).list.length : Int) < c.size.toInt ∧
        (if c.size.toInt ≤ c.list.length then c.removeFront else c).size = c.size := by
      split_ifs with hfull
      · unfold removeFront
        split
        · rename_i hnil
          simp [hnil] at hfull
          omega
        · rename_i front rest hcons
          have hnd : (front.2 :: rest.map (·.2)).Nodup := by simpa [keys, hcons] using h.nodup
          refine ⟨⟨(List.nodup_cons.mp hnd).2, fun k e => ?_, ?_⟩, ?_, ?_, rfl⟩
          · by_cases hkf : k = front.2
            · subst hkf
              rw [AList.lookup_erase]
              simp only [reduceCtorEq, false_iff, not_and]
              intro he hek
              exact (List.nodup_cons.mp hnd).1 (hek ▸ List.mem_map_of_mem he)
            · rw [AList.lookup_erase_ne hkf, h.lookup_iff, hcons, List.mem_cons]
              constructor
              · rintro ⟨rfl | he, rfl⟩
                · exact absurd rfl hkf
                · exact ⟨he, rfl⟩
              · rintro ⟨he, rfl⟩
                exact ⟨.inr he, rfl⟩
          · have := h.length_le
            simp only [hcons, List.length_cons] at this
            simp only
            omega
          · intro hk'
            exact hk (by simp only [keys, hcons, List.map_cons, List.mem_cons]; exact .inr hk')
          · have := h.length_le
            simp only [hcons, List.length_cons] at this
            simp only
            omega
      · exact ⟨h, hk, by omega, rfl⟩
    obtain ⟨hc, hk', hlen, hsize'⟩ := hc
    generalize (if c.size.toInt ≤ c.list.length then c.removeFront else c) = c' at hc hk' hlen hsize' 
    refine ⟨?_, fun k e => ?_, ?_⟩
    · simp only [keys, List.map_append, List.map_cons, List.map_nil]
      exact hc.nodup.append (List.nodup_singleton _) (by simpa [keys] using hk')
    · by_cases hkk : k = key
      · subst hkk
        rw [AList.lookup_insert, List.mem_append, List.mem_singleton, Option.some.injEq]
        constructor
        · rintro rfl
          exact ⟨.inr rfl, rfl⟩
        · rintro ⟨he | rfl, hek⟩
          · exact absurd (hek ▸ List.mem_map_of_mem he) hk'
          · rfl
      · rw [AList.lookup_insert_ne hkk, hc.lookup_iff, List.mem_append, List.mem_singleton]
        constructor
        · rintro ⟨he, rfl⟩
          exact ⟨.inl he, rfl⟩
        · rintro ⟨he | rfl, rfl⟩
          · exact ⟨he, rfl⟩
          · exact absurd rfl hkk
    · simp only [List.length_append, List.length_singleton, hsize']
      push_cast
      omega

theorem Inv.reset : Inv c.reset :=
  ⟨List.nodup_nil, fun k e => by simp [LRUTxCache.reset],
    by simp only [LRUTxCache.reset, List.length_nil]; omega⟩

theorem Inv.step (h : Inv c) (op : CacheOp) : Inv (c.step op) := by
  cases op with
  | push key => exact h.push hsize key
  | remove key => exact h.remove key
  | has => exact h
  | reset => exact Inv.reset hsize

omit hsize in
theorem Inv.run (h : Inv c) (hsize : 0 < c.size.toInt) (ops : List CacheOp) : Inv (c.run ops) := by
  induction ops using List.reverseRecOn with
  | nil => exact h
  | append_singleton ops op ih =>
    rw [run_append_singleton]
    exact ih.step (by rw [run_size]; exact hsize) op

end Agree

theorem inv_newLRUTxCache {size : Int64} (hsize : 0 < size.toInt) : Inv (newLRUTxCache size) :=
  ⟨List.nodup_nil, fun k e => by simp [newLRUTxCache], by simp only [newLRUTxCache, List.length_nil]; omega⟩

/-! ## The key list is the mempool model's cache -/

section Refines
variable {c : LRUTxCache}

theorem Inv.keys_push (h : Inv c) (key : TxKey) :
    (c.push key).1.keys = if key ∈ c.keys then c.keys.erase key ++ [key]
      else (if c.size.toInt ≤ c.list.length then c.keys.drop 1 else c.keys) ++ [key] := by
  unfold LRUTxCache.push
  split
  · rename_i moved hl
    obtain ⟨hmem, rfl⟩ := (h.lookup_iff _ moved).mp hl
    have hk : moved.2 ∈ c.keys := List.mem_map_of_mem hmem
    rw [if_pos hk]
    simp only [keys, List.map_append, keys_erase h.nodup hmem, List.map_cons, List.map_nil]
  · rename_i hl
    rw [if_neg (h.lookup_eq_none.mp hl)]
    dsimp only
    split_ifs
    · unfold removeFront keys
      split <;> simp_all
    · simp [keys]

theorem Inv.push_snd (h : Inv c) (key : TxKey) : (c.push key).2 = !decide (key ∈ c.keys) := by
  unfold LRUTxCache.push
  split
  · rename_i moved hl
    obtain ⟨hmem, rfl⟩ := (h.lookup_iff _ moved).mp hl
    have hk : moved.2 ∈ c.keys := List.mem_map_of_mem hmem
    simp [hk]
  · rename_i hl
    simp [h.lookup_eq_none.mp hl]

theorem keys_remove (h : Inv c) (key : TxKey) : (c.remove key).keys = c.keys.erase key := by
  unfold LRUTxCache.remove
  split
  · rename_i e hl
    obtain ⟨hmem, rfl⟩ := (h.lookup_iff _ e).mp hl
    exact keys_erase h.nodup hmem
  · rename_i hl
    exact (List.erase_of_not_mem (h.lookup_eq_none.mp hl)).symm

/-- `Push`, `Remove` and `Reset` act on the keys as the mempool model's `TxCache` does. -/
theorem Inv.push_toTxCache (h : Inv c) (key : TxKey) :
    ((c.push key).1.toTxCache, (c.push key).2) = c.toTxCache.push key := by
  have hlen : c.keys.length = c.list.length := List.length_map _
  rw [toTxCache, toTxCache, push_size, h.keys_push, h.push_snd]
  unfold TxCache.push
  by_cases hk : key ∈ c.keys <;> simp [hk, hlen]

theorem Inv.remove_toTxCache (h : Inv c) (key : TxKey) : (c.remove key).toTxCache = c.toTxCache.remove key := by
  rw [toTxCache, toTxCache, TxCache.remove, remove_size, keys_remove h]

theorem reset_toTxCache (c : LRUTxCache) : c.reset.toTxCache = c.toTxCache.reset := rfl

/-- The LRU cache refines the mempool model's cache: after every run of calls on a cache of positive size its
    keys are those of the model's cache after the same calls, and the next `Push` answers as the model's
    does. -/
theorem lruTxCache_refines {size : Int64} (hsize : 0 < size.toInt) (ops : List CacheOp) :
    ((newLRUTxCache size).run ops).toTxCache = ops.foldl TxCache.step (.lru size []) ∧
      ∀ key, (((newLRUTxCache size).run ops).push key).2 = ((ops.foldl TxCache.step (.lru size [])).push key).2 := by
  -- by induction on the calls from the back, each refined by its lemma while the map and the list agree
  have hrun : ∀ ops : List CacheOp,
      ((newLRUTxCache size).run ops).toTxCache = ops.foldl TxCache.step (.lru size []) := by
    intro ops
    induction ops using List.reverseRecOn with
    | nil => rfl
    | append_singleton ops op ih =>
      have h := (inv_newLRUTxCache hsize).run hsize ops
      rw [run_append_singleton, List.foldl_append, List.foldl_cons, List.foldl_nil, ← ih]
      cases op with
      | push key => exact congrArg Prod.fst (h.push_toTxCache key)
      | remove key => exact h.remove_toTxCache key
      | has => rfl
      | reset => exact reset_toTxCache _
  refine ⟨hrun ops, fun key => ?_⟩
  rw [← hrun ops]
  exact congrArg Prod.snd (((inv_newLRUTxCache hsize).run hsize ops).push_toTxCache key)

/-- Two pushes on a cache of one key: the LRU cache and the model's cache both hold `[2]` alone. -/
theorem lruTxCache_refines_twoPushes :
    0 < (1 : Int64).toInt ∧
      ((newLRUTxCache 1).run [.push [1], .push [2]]).toTxCache =
        [CacheOp.push [1], .push [2]].foldl TxCache.step (.lru 1 []) ∧
      ∀ key, (((newLRUTxCache 1).run [.push [1], .push [2]]).push key).2 =
        (([CacheOp.push [1], .push [2]].foldl TxCache.step (.lru 1 [])).push key).2 :=
  ⟨by decide, lruTxCache_refines (by decide) _⟩

end Refines

/-! ## The list is in the order of the last pushes -/

/-- One more than the position of the last `Push` of `key` in `ops`, and `0` when there is none. -/
def lastPush (ops : List CacheOp) (key : TxKey) : Nat :=
  ops.zipIdx.foldl (fun last p => if p.1 = .push key then p.2 + 1 else last) 0

theorem lastPush_append_singleton (ops : List CacheOp) (op : CacheOp) (key : TxKey) :
    lastPush (ops ++ [op]) key = if op = .push key then ops.length + 1 else lastPush ops key := by
  simp [lastPush, List.zipIdx_append]

theorem lastPush_le (ops : List CacheOp) (key : TxKey) : lastPush ops key ≤ ops.length := by
  induction ops using List.reverseRecOn with
  | nil => simp [lastPush]
  | append_singleton ops op ih =>
    rw [lastPush_append_singleton, List.length_append, List.length_singleton]
    split <;> omega

/-- The keys of `c`, front first, were last pushed in that order in `ops`. -/
def Ordered (ops : List CacheOp) (c : LRUTxCache) : Prop :=
  c.keys.Pairwise fun a b => lastPush ops a < lastPush ops b

/-- A key pushed now comes after every key of a part of an ordered key list that does not hold it. -/
theorem ordered_append_push {ops : List CacheOp} {keys l : List TxKey} {key : TxKey}
    (ho : keys.Pairwise fun a b => lastPush ops a < lastPush ops b) (hl : l.Sublist keys) (hk : key ∉ l) :
    (l ++ [key]).Pairwise fun a b => lastPush (ops ++ [.push key]) a < lastPush (ops ++ [.push key]) b := by
  have hsame : ∀ a ∈ l, lastPush (ops ++ [.push key]) a = lastPush ops a := by
    intro a ha
    rw [lastPush_append_singleton, if_neg]
    rintro ⟨⟩
    exact hk ha
  rw [List.pairwise_append]
  refine ⟨(ho.sublist hl).imp_of_mem fun ha hb hab => ?_, List.pairwise_singleton _ _, ?_⟩
  · rw [hsame _ ha, hsame _ hb]
    exact hab
  · intro a ha b hb
    rw [List.mem_singleton] at hb
    subst hb
    rw [hsame a ha, lastPush_append_singleton, if_pos rfl]
    exact Nat.lt_succ_of_le (lastPush_le ops a)

theorem Inv.ordered_step {c : LRUTxCache} (h : Inv c) {ops : List CacheOp} (ho : Ordered ops c)
    (op : CacheOp) : Ordered (ops ++ [op]) (c.step op) := by
  -- only a `Push` changes when a key was last pushed
  have hsame : (∀ key, op ≠ .push key) → ∀ a, lastPush (ops ++ [op]) a = lastPush ops a :=
    fun hop a => by rw [lastPush_append_singleton, if_neg (hop a)]
  unfold Ordered at ho ⊢
  cases op with
  | push key =>
    rw [LRUTxCache.step, h.keys_push]
    split_ifs with hk
    · exact ordered_append_push ho List.erase_sublist (h.nodup.not_mem_erase)
    · exact ordered_append_push ho (List.drop_sublist 1 _) fun hk' => hk (List.mem_of_mem_drop hk')
    · exact ordered_append_push ho (List.Sublist.refl _) hk
  | remove key =>
    rw [LRUTxCache.step, keys_remove h]
    simp only [hsame (fun _ => by simp)]
    exact ho.sublist List.erase_sublist
  | has key =>
    simp only [LRUTxCache.step, hsame (fun _ => by simp)]
    exact ho
  | reset =>
    simp [LRUTxCache.step, LRUTxCache.reset, keys]

theorem run_ordered {size : Int64} (hsize : 0 < size.toInt) (ops : List CacheOp) :
    Ordered ops ((newLRUTxCache size).run ops) := by
  induction ops using List.reverseRecOn with
  | nil => exact List.Pairwise.nil
  | append_singleton ops op ih =>
    rw [run_append_singleton]
    exact ((inv_newLRUTxCache hsize).run hsize ops).ordered_step ih op

/-- Over every run of calls on a cache of positive size: the map and the list hold the same keys, each key
    once, and the map holds the element of its key; the list holds at most `size` elements; and the next
    `Push` succeeds exactly for a key not held, leaves that key at the back, and on a full cache evicts the
    front key, the one pushed or refreshed longest ago. -/
theorem lruTxCache_run_spec {size : Int64} (hsize : 0 < size.toInt) (ops : List CacheOp) (key : TxKey) :
    let c := (newLRUTxCache size).run ops
    (∀ k, (c.cacheMap.lookup k).isSome ↔ k ∈ c.keys) ∧ c.keys.Nodup ∧
      (∀ k e, c.cacheMap.lookup k = some e → e ∈ c.list ∧ e.2 = k) ∧ (c.list.length : Int) ≤ size.toInt ∧
      ((c.push key).2 = true ↔ key ∉ c.keys) ∧ (c.push key).1.keys.getLast? = some key ∧
      (key ∉ c.keys → size.toInt ≤ c.list.length →
        ∃ k₀ rest, c.keys = k₀ :: rest ∧ (c.push key).1.keys = rest ++ [key] ∧
          ∀ k ∈ rest, lastPush ops k₀ < lastPush ops k) := by
  intro c
  have h : Inv c := (inv_newLRUTxCache hsize).run hsize ops
  have hs : c.size = size := run_size _ _
  have ho : Ordered ops c := run_ordered hsize ops
  refine ⟨fun k => ?_, h.nodup, fun k e he => (h.lookup_iff k e).mp he, hs ▸ h.length_le, ?_, ?_, ?_⟩
  · rw [Option.isSome_iff_ne_none, ne_eq, h.lookup_eq_none, not_not]
  · rw [h.push_snd]
    simp
  · rw [h.keys_push]
    split_ifs <;> simp
  · intro hk hfull
    obtain ⟨k₀, rest, hkeys⟩ : ∃ k₀ rest, c.keys = k₀ :: rest := by
      cases hc : c.keys with
      | nil =>
        have hnil : c.list = [] := List.map_eq_nil_iff.mp hc
        rw [hnil, List.length_nil] at hfull
        omega
      | cons k₀ rest => exact ⟨k₀, rest, rfl⟩
    refine ⟨k₀, rest, hkeys, ?_, ?_⟩
    · rw [h.keys_push, if_neg hk, if_pos (hs ▸ hfull), hkeys]
      rfl
    · unfold Ordered at ho
      rw [hkeys, List.pairwise_cons] at ho
      exact ho.1

/-- A cache of size one that holds `[1]`: pushing `[2]` evicts `[1]`. -/
theorem lruTxCache_run_spec_evicts :
    0 < (1 : Int64).toInt ∧
      let c := (newLRUTxCache 1).run [.push [1]]
      (∀ k, (c.cacheMap.lookup k).isSome ↔ k ∈ c.keys) ∧ c.keys.Nodup ∧
        (∀ k e, c.cacheMap.lookup k = some e → e ∈ c.list ∧ e.2 = k) ∧
        (c.list.length : Int) ≤ (1 : Int64).toInt ∧
        ((c.push [2]).2 = true ↔ [2] ∉ c.keys) ∧ (c.push [2]).1.keys.getLast? = some [2] ∧
        ([2] ∉ c.keys → (1 : Int64).toInt ≤ c.list.length →
          ∃ k₀ rest, c.keys = k₀ :: rest ∧ (c.push [2]).1.keys = rest ++ [[2]] ∧
            ∀ k ∈ rest, lastPush [.push [1]] k₀ < lastPush [.push [1]] k) :=
  ⟨by decide, lruTxCache_run_spec (by decide) [.push [1]] [2]⟩

end LRUTxCache

end CometBFT.Mempool
