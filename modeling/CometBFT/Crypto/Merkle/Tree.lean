import CometBFT.Lib.MerkleTree
import CometBFT.Types.BlockID

/-! The simple Merkle tree (`crypto/merkle/tree.go`, `crypto/merkle/hash.go`). `tmhash.Sum`, SHA-256, is
    the parameter `sha`; `leafHashOpt` and `innerHashOpt` feed the same bytes to a reused hasher and are
    `leafHash` and `innerHash` here.

    `HashFromByteSlices` splits its items at `getSplitPoint`: it is `MerkleTree.root` of the leaf hashes.
    `HashFromByteSlicesIterative` hashes the leaves, then joins neighbours in place, level by level; a
    pass writes behind what it reads, so after it the first `wp` items are `MerkleTree.pairUp` of the
    level, and the two functions agree on every list. -/

namespace CometBFT

namespace Merkle

open MerkleTree

section
variable (sha : List UInt8 → List UInt8)

/-- `emptyHash`: `tmhash(<empty>)`. -/
def emptyHash : List UInt8 := sha []

/-- `leafHash`: `tmhash(0x00 || leaf)`. -/
def leafHash (leaf : List UInt8) : List UInt8 := sha (0 :: leaf)

/-- `innerHash`: `tmhash(0x01 || left || right)`. -/
def innerHash (left right : List UInt8) : List UInt8 := sha (1 :: (left ++ right))

/-- `getSplitPoint`, on a length of at least one (it panics below): `bits.Len` is `Nat.size`. Both
    callers call it on lengths of at least two. -/
def getSplitPoint (length : Nat) : Nat :=
  let bitlen := length.size
  let k := 1 <<< (bitlen - 1)
  if k = length then k >>> 1 else k

example : getSplitPoint 5 = 4 ∧ getSplitPoint 8 = 4 ∧ getSplitPoint 2 = 1 := by decide

theorem getSplitPoint_eq {n : Nat} (h : 2 ≤ n) : getSplitPoint n = splitPoint n := by
  have hpos : 0 < n.size := Nat.size_pos.mpr (by omega)
  have hlo : 2 ^ (n.size - 1) ≤ n := Nat.lt_size.mp (by omega)
  have hhi : n < 2 ^ n.size := Nat.lt_size_self n
  obtain ⟨m, hm⟩ : ∃ m, n.size = m + 1 := ⟨n.size - 1, by omega⟩
  rw [hm, Nat.add_sub_cancel] at hlo
  rw [hm, Nat.pow_succ] at hhi
  simp only [getSplitPoint, hm, Nat.add_sub_cancel, Nat.one_shiftLeft, Nat.shiftRight_one]
  split_ifs with hk
  · -- the length is a power of two: the split is half of it
    obtain ⟨j, rfl⟩ : ∃ j, m = j + 1 := ⟨m - 1, by
      rcases m with _ | m
      · simp at hk; omega
      · omega⟩
    rw [Nat.pow_succ, Nat.mul_div_cancel _ (by decide)]
    refine (splitPoint_eq_of_lt ?_ ?_).symm
    · rw [← hk, Nat.pow_succ]
      have := Nat.two_pow_pos j
      omega
    · rw [← hk]
  · exact (splitPoint_eq_of_lt (by omega) (by rw [Nat.pow_succ]; omega)).symm

theorem getSplitPoint_lt {n : Nat} (h : 2 ≤ n) : getSplitPoint n < n := by
  rw [getSplitPoint_eq h]
  exact splitPoint_lt h

theorem getSplitPoint_pos {n : Nat} (h : 2 ≤ n) : 0 < getSplitPoint n := by
  rw [getSplitPoint_eq h]
  exact splitPoint_pos n

/-- `HashFromByteSlices`. -/
def hashFromByteSlices : List (List UInt8) → List UInt8
  | [] => emptyHash sha
  | [item] => leafHash sha item
  | a :: b :: rest =>
    innerHash sha (hashFromByteSlices ((a :: b :: rest).take (getSplitPoint (rest.length + 2))))
      (hashFromByteSlices ((a :: b :: rest).drop (getSplitPoint (rest.length + 2))))
termination_by items => items.length
decreasing_by
  · have := getSplitPoint_lt (n := rest.length + 2) (by omega)
    simp only [List.length_take, List.length_cons]
    omega
  · have := getSplitPoint_pos (n := rest.length + 2) (by omega)
    simp only [List.length_drop, List.length_cons]
    omega

/-- `HashFromByteSlices` is the tree root of the leaf hashes. -/
theorem hashFromByteSlices_eq_root (items : List (List UInt8)) :
    hashFromByteSlices sha items = root (innerHash sha) (emptyHash sha) (items.map (leafHash sha)) := by
  induction h : items.length using Nat.strong_induction_on generalizing items with
  | _ n ih =>
    match items with
    | [] => simp [hashFromByteSlices, root]
    | [item] => simp [hashFromByteSlices, root]
    | a :: b :: rest =>
      have h2 : 2 ≤ rest.length + 2 := by omega
      have hk := getSplitPoint_lt h2
      have hk0 := getSplitPoint_pos h2
      rw [hashFromByteSlices, root_split _ _ (by simp), List.length_map, List.length_cons, List.length_cons,
        ← getSplitPoint_eq h2, ← List.map_take, ← List.map_drop,
        ih _ (by rw [← h, List.length_take]; simp only [List.length_cons]; omega) _ rfl,
        ih _ (by rw [← h, List.length_drop]; simp only [List.length_cons]; omega) _ rfl]

/-! ### The iterative root -/

/-- One pass of the inner loop of `HashFromByteSlicesIterative`, from read position `rp` and write
    position `wp`: a pair is joined into `items[wp]`, an odd last item is moved there. It returns the
    items and the write position, the new `size`. -/
def pairPass (size : Nat) (items : List (List UInt8)) (rp wp : Nat) : List (List UInt8) × Nat :=
  if rp < size then
    if rp + 1 < size then
      pairPass size (items.set wp (innerHash sha (items.getD rp []) (items.getD (rp + 1) []))) (rp + 2) (wp + 1)
    else pairPass size (items.set wp (items.getD rp [])) (rp + 1) (wp + 1)
  else (items, wp)
termination_by size - rp

theorem pairPass_snd (size : Nat) (items : List (List UInt8)) (rp wp : Nat) :
    (pairPass sha size items rp wp).2 = wp + (size - rp + 1) / 2 := by
  fun_induction pairPass sha size items rp wp <;> omega

theorem length_pairPass (size : Nat) (items : List (List UInt8)) (rp wp : Nat) :
    (pairPass sha size items rp wp).1.length = items.length := by
  fun_induction pairPass sha size items rp wp <;> simp_all

/-- What a pass has written: the first `wp` items are kept and the rest of the level, from `rp`, is
    joined pairwise behind them. The writes never overtake the reads (`wp ≤ rp`). -/
theorem pairPass_take {size : Nat} {items : List (List UInt8)} {rp wp : Nat} (hwp : wp ≤ rp)
    (hsize : size ≤ items.length) :
    (pairPass sha size items rp wp).1.take (pairPass sha size items rp wp).2 =
      items.take wp ++ pairUp (innerHash sha) ((items.take size).drop rp) := by
  fun_induction pairPass sha size items rp wp with
  | case1 items rp wp hrp hrp1 ih =>
    -- a pair at `rp`, `rp + 1` is joined into `wp`
    have hlen : (items.set wp (innerHash sha (items.getD rp []) (items.getD (rp + 1) []))).length = items.length :=
      List.length_set ..
    rw [ih (by omega) (by omega), List.take_succ_eq_append_getElem (by rw [hlen]; omega)]
    have hread : (items.take size).drop rp =
        items.getD rp [] :: items.getD (rp + 1) [] :: (items.take size).drop (rp + 2) := by
      rw [List.drop_eq_getElem_cons (by simp; omega), List.drop_eq_getElem_cons (by simp; omega)]
      simp [List.getD_eq_getElem?_getD, List.getElem?_eq_getElem (show rp < items.length by omega),
        List.getElem?_eq_getElem (show rp + 1 < items.length by omega), Nat.add_assoc]
    have hrest : ((items.set wp (innerHash sha (items.getD rp []) (items.getD (rp + 1) []))).take size).drop (rp + 2) =
        (items.take size).drop (rp + 2) := by
      rw [List.take_set, List.drop_set_of_lt (by omega)]
    rw [hread, pairUp, List.take_set_of_le (by omega), List.getElem_set_self, hrest, List.append_assoc]
    rfl
  | case2 items rp wp hrp hrp1 =>
    -- an odd last item at `rp` moves to `wp`, and the pass ends
    have hlen : (items.set wp (items.getD rp [])).length = items.length := List.length_set ..
    rw [pairPass, if_neg (by omega), List.take_succ_eq_append_getElem (by rw [hlen]; omega),
      List.take_set_of_le (by omega), List.getElem_set_self]
    have hread : (items.take size).drop rp = [items.getD rp []] := by
      rw [List.drop_eq_getElem_cons (by simp; omega)]
      simp [List.getD_eq_getElem?_getD, List.getElem?_eq_getElem (show rp < items.length by omega),
        List.drop_eq_nil_of_le (show (items.take size).length ≤ rp + 1 by rw [List.length_take]; omega)]
    rw [hread]
    rfl
  | case3 items rp wp hrp =>
    rw [List.drop_eq_nil_of_le (by rw [List.length_take]; omega)]
    simp [pairUp]

/-- The outer loop of `HashFromByteSlicesIterative` on the first `size` items. -/
def iterativeLoop (items : List (List UInt8)) (size : Nat) : List UInt8 :=
  match size with
  | 0 => emptyHash sha
  | 1 => items.getD 0 []
  | size + 2 => iterativeLoop (pairPass sha (size + 2) items 0 0).1 (pairPass sha (size + 2) items 0 0).2
termination_by size
decreasing_by
  rw [pairPass_snd]
  omega

/-- `HashFromByteSlicesIterative`. -/
def hashFromByteSlicesIterative (input : List (List UInt8)) : List UInt8 :=
  iterativeLoop sha (input.map (leafHash sha)) input.length

/-- The outer loop computes the tree root of the level it starts from: a pass is `pairUp`, which keeps
    the root. -/
theorem iterativeLoop_eq_root (items : List (List UInt8)) (size : Nat) (hsize : size ≤ items.length) :
    iterativeLoop sha items size = root (innerHash sha) (emptyHash sha) (items.take size) := by
  induction size using Nat.strong_induction_on generalizing items with
  | _ size ih =>
    match size with
    | 0 => simp [iterativeLoop, root]
    | 1 =>
      obtain ⟨a, as, rfl⟩ := List.exists_cons_of_length_pos (show 0 < items.length by omega)
      simp [iterativeLoop, root]
    | size + 2 =>
      have hpass := pairPass_take sha (le_refl 0) hsize
      rw [List.take_zero, List.nil_append, List.drop_zero] at hpass
      have hwp := pairPass_snd sha (size + 2) items 0 0
      rw [iterativeLoop, ih _ (by omega) _ (by rw [length_pairPass, hwp]; omega), hpass, root_pairUp]

/-- The iterative Merkle root is the recursive one, for every list of items. -/
theorem hashFromByteSlicesIterative_eq (items : List (List UInt8)) :
    hashFromByteSlicesIterative sha items = hashFromByteSlices sha items := by
  rw [hashFromByteSlicesIterative, iterativeLoop_eq_root sha _ _ (by simp), hashFromByteSlices_eq_root,
    ← List.length_map (leafHash sha), List.take_length]

end

end Merkle

end CometBFT
