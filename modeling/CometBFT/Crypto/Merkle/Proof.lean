import CometBFT.Crypto.Merkle.Tree

/-! Merkle inclusion proofs (`crypto/merkle/proof.go`): `ProofsFromByteSlices`, `Proof.Verify` and
    `computeHashFromAunts`.

    `trailsFromByteSlices` links `ProofNode`s by pointers, and `FlattenAunts` walks a trail up through
    its parents, collecting the sibling hash of each node. Here a trail is its leaf hash with the list
    `FlattenAunts` reads from it: the leaves of the left part of a split continue with the right part's
    root, and those of the right part with the left part's root.

    `computeHashFromAunts` recomputes `MerkleTree.rootFromAunts` on indices and totals in range, so every
    leaf's proof verifies. A proof verifies only for the leaf at its index when SHA-256 gives no message
    the tree hashes a second preimage, since every hash is 32 bytes long and an inner node's message is
    the two child hashes one after the other. -/

namespace CometBFT

namespace Merkle

open MerkleTree

/-- `Proof`. -/
structure Proof where
  total : Int
  index : Int
  leafHash : List UInt8
  aunts : List (List UInt8)
  deriving Repr, DecidableEq

/-- The errors of `computeHashFromAunts`; `panic` is its panic on a zero total. -/
inductive AuntsError
  | invalidIndexTotal (index total : Int)
  | unexpectedInnerHashes
  | expectedInnerHash
  | panic
  deriving Repr, DecidableEq

/-- The errors of `Proof.Verify`, with the values their messages print. -/
inductive ProofError
  | nilRoot
  | negativeTotal
  | negativeIndex
  | leafMismatch (leafHash want : List UInt8)
  | computeRootHash (e : AuntsError)
  | rootMismatch (computed want : List UInt8)
  deriving Repr, DecidableEq

section
variable (sha : List UInt8 → List UInt8)

/-- `computeHashFromAunts`: an error of the recursive call is returned as it is. -/
def computeHashFromAunts (index total : Int) (leafHash : List UInt8) (innerHashes : List (List UInt8)) :
    Except AuntsError (List UInt8) :=
  if index ≥ total ∨ index < 0 ∨ total ≤ 0 then .error (.invalidIndexTotal index total)
  else if total = 0 then .error .panic
  else if total = 1 then
    if innerHashes.length ≠ 0 then .error .unexpectedInnerHashes else .ok leafHash
  else if _ : innerHashes.length = 0 then .error .expectedInnerHash
  else
    let numLeft : Int := getSplitPoint total.toNat
    if index < numLeft then
      (fun leftHash => innerHash sha leftHash (innerHashes.getLastD [])) <$>
        computeHashFromAunts index numLeft leafHash innerHashes.dropLast
    else
      (fun rightHash => innerHash sha (innerHashes.getLastD []) rightHash) <$>
        computeHashFromAunts (index - numLeft) (total - numLeft) leafHash innerHashes.dropLast
termination_by innerHashes.length
decreasing_by all_goals (simp only [List.length_dropLast]; omega)

/-- `Proof.Verify`; a nil root is an empty one. -/
def Proof.verify (sp : Proof) (rootHash leaf : List UInt8) : Except ProofError Unit :=
  if rootHash = [] then .error .nilRoot
  else if sp.total < 0 then .error .negativeTotal
  else if sp.index < 0 then .error .negativeIndex
  else
    let leafHash := Merkle.leafHash sha leaf
    if sp.leafHash ≠ leafHash then .error (.leafMismatch sp.leafHash leafHash)
    else
      match computeHashFromAunts sha sp.index sp.total sp.leafHash sp.aunts with
      | .error e => .error (.computeRootHash e)
      | .ok computedHash =>
        if computedHash ≠ rootHash then .error (.rootMismatch computedHash rootHash) else .ok ()

/-- `MaxAunts`. -/
def maxAunts : Nat := 100

/-- The errors of `Proof.ValidateBasic`: `ErrInvalidProof` for a negative total or index, `ErrInvalidHash`
    for a leaf or aunt hash of the wrong length, with what its message prints, and
    `ErrMaxAuntsLenExceeded`. -/
inductive ValidateError
  | negativeTotal
  | negativeIndex
  | leafLength (length : Nat)
  | maxAuntsLenExceeded
  | auntLength (i length : Nat)
  deriving Repr, DecidableEq

/-- The loop of `Proof.ValidateBasic` over the aunts, the first of them numbered `i`. -/
def validateAunts : List (List UInt8) → Nat → Except ValidateError Unit
  | [], _ => .ok ()
  | auntHash :: aunts, i =>
    if auntHash.length ≠ tmhashSize then .error (.auntLength i auntHash.length) else validateAunts aunts (i + 1)

/-- `Proof.ValidateBasic`. -/
def Proof.validateBasic (sp : Proof) : Except ValidateError Unit :=
  if sp.total < 0 then .error .negativeTotal
  else if sp.index < 0 then .error .negativeIndex
  else if sp.leafHash.length ≠ tmhashSize then .error (.leafLength sp.leafHash.length)
  else if sp.aunts.length > maxAunts then .error .maxAuntsLenExceeded
  else validateAunts sp.aunts 0

/-- `trailsFromByteSlices`: each trail as its leaf hash and its `FlattenAunts`, with the root's hash. -/
def trailsFromByteSlices : List (List UInt8) → List (List UInt8 × List (List UInt8)) × List UInt8
  | [] => ([], emptyHash sha)
  | [item] => ([(leafHash sha item, [])], leafHash sha item)
  | a :: b :: rest =>
    let lefts := trailsFromByteSlices ((a :: b :: rest).take (getSplitPoint (rest.length + 2)))
    let rights := trailsFromByteSlices ((a :: b :: rest).drop (getSplitPoint (rest.length + 2)))
    (lefts.1.map (fun t => (t.1, t.2 ++ [rights.2])) ++ rights.1.map (fun t => (t.1, t.2 ++ [lefts.2])),
      innerHash sha lefts.2 rights.2)
termination_by items => items.length
decreasing_by
  · have := getSplitPoint_lt (n := rest.length + 2) (by omega)
    simp only [List.length_take, List.length_cons]
    omega
  · have := getSplitPoint_pos (n := rest.length + 2) (by omega)
    simp only [List.length_drop, List.length_cons]
    omega

/-- `ProofsFromByteSlices`: the root hash and the proof of each item. -/
def proofsFromByteSlices (items : List (List UInt8)) : List UInt8 × List Proof :=
  let trails := trailsFromByteSlices sha items
  (trails.2, trails.1.mapIdx fun i trail =>
    { total := items.length, index := i, leafHash := trail.1, aunts := trail.2 })

/-- The messages `HashFromByteSlices` hands to `tmhash`, for the leaves and the inner nodes. -/
def treeMessages (items : List (List UInt8)) : List (List UInt8) :=
  items.map (0 :: ·) ++
    (nodes (innerHash sha) (emptyHash sha) (items.map (leafHash sha))).map fun p => 1 :: (p.1 ++ p.2)

/-! ### `computeHashFromAunts` recomputes the tree's root -/

theorem computeHashFromAunts_invalid {index total : Int} {leafHash : List UInt8} {aunts : List (List UInt8)}
    (h : index ≥ total ∨ index < 0 ∨ total ≤ 0) :
    computeHashFromAunts sha index total leafHash aunts = .error (.invalidIndexTotal index total) := by
  rw [computeHashFromAunts, if_pos h]

theorem computeHashFromAunts_one {leafHash : List UInt8} {aunts : List (List UInt8)} :
    computeHashFromAunts sha 0 1 leafHash aunts =
      if aunts.length ≠ 0 then .error .unexpectedInnerHashes else .ok leafHash := by
  rw [computeHashFromAunts, if_neg (by omega), if_neg (by omega), if_pos rfl]

theorem computeHashFromAunts_nil {index total : Int} {leafHash : List UInt8} (hi : 0 ≤ index ∧ index < total)
    (h2 : 2 ≤ total) : computeHashFromAunts sha index total leafHash [] = .error .expectedInnerHash := by
  rw [computeHashFromAunts, if_neg (by omega), if_neg (by omega), if_neg (by omega), dif_pos List.length_nil]

/-- Above one leaf, the last hash of the path is the sibling at the top, and the rest is recomputed in the
    part that holds the index. -/
theorem computeHashFromAunts_concat {index total : Int} {leafHash last : List UInt8} {aunts : List (List UInt8)}
    (hi : 0 ≤ index ∧ index < total) (h2 : 2 ≤ total) :
    computeHashFromAunts sha index total leafHash (aunts ++ [last]) =
      if index < (splitPoint total.toNat : Int) then
        (fun leftHash => innerHash sha leftHash last) <$>
          computeHashFromAunts sha index (splitPoint total.toNat) leafHash aunts
      else
        (fun rightHash => innerHash sha last rightHash) <$>
          computeHashFromAunts sha (index - splitPoint total.toNat) (total - splitPoint total.toNat) leafHash aunts := by
  rw [computeHashFromAunts, if_neg (by omega), if_neg (by omega), if_neg (by omega), dif_neg (by simp)]
  simp only [List.dropLast_concat, List.getLastD_concat, getSplitPoint_eq (show 2 ≤ total.toNat by omega)]

/-- On an index and a total in range, `computeHashFromAunts` succeeds exactly where `rootFromAunts` does,
    with the same root. -/
theorem computeHashFromAunts_eq_ok {index total : Int} {leafHash r : List UInt8} {aunts : List (List UInt8)} :
    computeHashFromAunts sha index total leafHash aunts = .ok r ↔
      0 ≤ index ∧ rootFromAunts (innerHash sha) index.toNat total.toNat leafHash aunts = some r := by
  induction aunts using List.reverseRecOn generalizing index total r with
  | nil =>
    by_cases hrange : index ≥ total ∨ index < 0 ∨ total ≤ 0
    · rw [computeHashFromAunts_invalid sha hrange]
      simp only [reduceCtorEq, false_iff, not_and]
      intro hi
      rw [rootFromAunts_of_le _ (by omega)]
      simp
    by_cases h1 : total = 1
    · obtain ⟨rfl, rfl⟩ : index = 0 ∧ total = 1 := ⟨by omega, h1⟩
      simp [computeHashFromAunts_one, rootFromAunts]
    rw [computeHashFromAunts_nil sha (by omega) (by omega), rootFromAunts_nil_path _ (by omega)]
    simp
  | append_singleton aunts last ih =>
    by_cases hrange : index ≥ total ∨ index < 0 ∨ total ≤ 0
    · rw [computeHashFromAunts_invalid sha hrange]
      simp only [reduceCtorEq, false_iff, not_and]
      intro hi
      rw [rootFromAunts_of_le _ (by omega)]
      simp
    by_cases h1 : total = 1
    · obtain ⟨rfl, rfl⟩ : index = 0 ∧ total = 1 := ⟨by omega, h1⟩
      simp [computeHashFromAunts_one, rootFromAunts]
    have hk := splitPoint_lt (show 2 ≤ total.toNat by omega)
    have hk0 := splitPoint_pos total.toNat
    rw [computeHashFromAunts_concat sha (by omega) (by omega), rootFromAunts_split _ (by omega) (by omega)]
    -- the index is in the left part or in the right one, on both sides
    by_cases hik : index < (splitPoint total.toNat : Int)
    · rw [if_pos hik, if_pos (by omega), except_map_eq_ok, Option.map_eq_some_iff]
      simp only [ih, Int.toNat_natCast, show 0 ≤ index by omega, true_and]
    · have hsub : (index - (splitPoint total.toNat : Int)).toNat = index.toNat - splitPoint total.toNat := by omega
      have hsubt : (total - (splitPoint total.toNat : Int)).toNat = total.toNat - splitPoint total.toNat := by omega
      rw [if_neg hik, if_neg (by omega), except_map_eq_ok, Option.map_eq_some_iff]
      simp only [ih, hsub, hsubt, show 0 ≤ index - (splitPoint total.toNat : Int) by omega, show 0 ≤ index by omega,
        true_and]

/-- `computeHashFromAunts` never reaches its panic: a zero total is refused before, and an error of the part
    below is passed up unchanged. -/
theorem computeHashFromAunts_ne_panic (index total : Int) (leafHash : List UInt8) (aunts : List (List UInt8)) :
    computeHashFromAunts sha index total leafHash aunts ≠ .error .panic := by
  induction aunts using List.reverseRecOn generalizing index total with
  | nil =>
    by_cases hrange : index ≥ total ∨ index < 0 ∨ total ≤ 0
    · rw [computeHashFromAunts_invalid sha hrange]
      simp
    by_cases h1 : total = 1
    · obtain ⟨rfl, rfl⟩ : index = 0 ∧ total = 1 := ⟨by omega, h1⟩
      simp [computeHashFromAunts_one]
    rw [computeHashFromAunts_nil sha (by omega) (by omega)]
    simp
  | append_singleton aunts last ih =>
    by_cases hrange : index ≥ total ∨ index < 0 ∨ total ≤ 0
    · rw [computeHashFromAunts_invalid sha hrange]
      simp
    by_cases h1 : total = 1
    · obtain ⟨rfl, rfl⟩ : index = 0 ∧ total = 1 := ⟨by omega, h1⟩
      rw [computeHashFromAunts_one]
      split_ifs <;> simp
    rw [computeHashFromAunts_concat sha (by omega) (by omega)]
    split_ifs
    · cases hc : computeHashFromAunts sha index (splitPoint total.toNat) leafHash aunts
      · rw [Except.map_error]
        exact hc ▸ ih _ _
      · simp [Except.map_ok]
    · cases hc : computeHashFromAunts sha (index - splitPoint total.toNat) (total - splitPoint total.toNat)
        leafHash aunts
      · rw [Except.map_error]
        exact hc ▸ ih _ _
      · simp [Except.map_ok]

/-! ### The proofs of `ProofsFromByteSlices` -/

/-- The trails are the leaf hashes with their paths in the tree, and the root is `HashFromByteSlices`. -/
theorem trailsFromByteSlices_eq (items : List (List UInt8)) :
    trailsFromByteSlices sha items =
      ((items.map (leafHash sha)).zip (trails (innerHash sha) (emptyHash sha) (items.map (leafHash sha))),
        hashFromByteSlices sha items) := by
  induction h : items.length using Nat.strong_induction_on generalizing items with
  | _ n ih =>
    match items with
    | [] => simp [trailsFromByteSlices, trails, hashFromByteSlices]
    | [item] => simp [trailsFromByteSlices, trails, hashFromByteSlices]
    | a :: b :: rest =>
      have h2 : 2 ≤ rest.length + 2 := by omega
      have hk := getSplitPoint_lt h2
      have hk0 := getSplitPoint_pos h2
      have hL := ih _ (by rw [← h, List.length_take]; simp only [List.length_cons]; omega)
        ((a :: b :: rest).take (getSplitPoint (rest.length + 2))) rfl
      have hR := ih _ (by rw [← h, List.length_drop]; simp only [List.length_cons]; omega)
        ((a :: b :: rest).drop (getSplitPoint (rest.length + 2))) rfl
      -- the tree's paths split at the same point as the trails
      have htrails := trails_split (innerHash sha) (emptyHash sha)
        (show 2 ≤ ((a :: b :: rest).map (leafHash sha)).length by simp)
      rw [List.length_map, show (a :: b :: rest).length = rest.length + 2 from rfl, ← getSplitPoint_eq h2,
        ← List.map_take, ← List.map_drop, ← hashFromByteSlices_eq_root, ← hashFromByteSlices_eq_root] at htrails
      rw [trailsFromByteSlices, hL, hR, hashFromByteSlices.eq_3 sha a b rest, htrails]
      refine Prod.ext ?_ rfl
      have hmap : (a :: b :: rest).map (leafHash sha) =
          ((a :: b :: rest).take (getSplitPoint (rest.length + 2))).map (leafHash sha) ++
            ((a :: b :: rest).drop (getSplitPoint (rest.length + 2))).map (leafHash sha) := by
        rw [← List.map_append, List.take_append_drop]
      rw [hmap, List.zip_append (by simp [length_trails]), List.zip_map_right, List.zip_map_right]
      rfl

theorem proofsFromByteSlices_eq (items : List (List UInt8)) :
    proofsFromByteSlices sha items =
      (hashFromByteSlices sha items,
        ((items.map (leafHash sha)).zip (trails (innerHash sha) (emptyHash sha) (items.map (leafHash sha)))).mapIdx
          fun i trail => { total := items.length, index := i, leafHash := trail.1, aunts := trail.2 }) := by
  rw [proofsFromByteSlices, trailsFromByteSlices_eq]

/-- What `Proof.Verify` checks. -/
theorem Proof.verify_eq_ok {sp : Proof} {rootHash leaf : List UInt8} :
    sp.verify sha rootHash leaf = .ok () ↔
      rootHash ≠ [] ∧ 0 ≤ sp.total ∧ 0 ≤ sp.index ∧ sp.leafHash = Merkle.leafHash sha leaf ∧
        computeHashFromAunts sha sp.index sp.total sp.leafHash sp.aunts = .ok rootHash := by
  unfold Proof.verify
  by_cases h1 : rootHash = []
  · simp [h1]
  by_cases h2 : sp.total < 0
  · simp [h1, h2]
  by_cases h3 : sp.index < 0
  · simp [h1, h2, h3]
  by_cases h4 : sp.leafHash = Merkle.leafHash sha leaf
  · simp only [h1, h2, h3, h4, ne_eq, not_true_eq_false, if_false, not_false_eq_true, true_and]
    cases hc : computeHashFromAunts sha sp.index sp.total (Merkle.leafHash sha leaf) sp.aunts with
    | error e => simp
    | ok r =>
      by_cases h5 : r = rootHash
      · simp [h5]; omega
      · simp [h5]
  · simp [h1, h2, h3, h4]

theorem validateAunts_eq_ok {aunts : List (List UInt8)} {i : Nat} :
    validateAunts aunts i = .ok () ↔ ∀ a ∈ aunts, a.length = tmhashSize := by
  induction aunts generalizing i with
  | nil => simp [validateAunts]
  | cons a aunts ih =>
    rw [validateAunts]
    by_cases h : a.length = tmhashSize
    · simp [h, ih]
    · simp [h]

/-- What `Proof.ValidateBasic` checks. -/
theorem Proof.validateBasic_eq_ok {sp : Proof} :
    sp.validateBasic = .ok () ↔ 0 ≤ sp.total ∧ 0 ≤ sp.index ∧ sp.leafHash.length = tmhashSize ∧
      sp.aunts.length ≤ maxAunts ∧ ∀ a ∈ sp.aunts, a.length = tmhashSize := by
  unfold Proof.validateBasic
  by_cases h1 : sp.total < 0
  · simp [h1]
  by_cases h2 : sp.index < 0
  · simp [h1, h2]
  by_cases h3 : sp.leafHash.length = tmhashSize
  · by_cases h4 : maxAunts < sp.aunts.length
    · simp [h1, h2, h3, h4]
    · simp only [h1, h2, h3, h4, if_false, ne_eq, not_true_eq_false, validateAunts_eq_ok]
      exact ⟨fun h => ⟨by omega, by omega, trivial, by omega, h⟩, fun h => h.2.2.2.2⟩
  · simp [h1, h2, h3]

/-! ### Completeness and binding -/

section
variable {sha} (hlen : ∀ m, (sha m).length = tmhashSize)
include hlen

theorem length_hashFromByteSlices {items : List (List UInt8)} (hne : items ≠ []) :
    (hashFromByteSlices sha items).length = tmhashSize := by
  rw [hashFromByteSlices_eq_root]
  exact root_mem (innerHash sha) (emptyHash sha) (Q := fun h => h.length = tmhashSize) (fun _ _ => hlen _)
    (by simp [leafHash, hlen]) (by simpa using hne)

/-- The proof `ProofsFromByteSlices` makes for an item verifies it against the root. -/
theorem verify_proofsFromByteSlices {items : List (List UInt8)} {i : Nat} {x : List UInt8} (hx : items[i]? = some x) :
    ∃ p : Proof, (proofsFromByteSlices sha items).2[i]? = some p ∧ p.total = items.length ∧ p.index = i ∧
      p.verify sha (hashFromByteSlices sha items) x = .ok () := by
  have hne : items ≠ [] := by rintro rfl; simp at hx
  have hleaf : (items.map (leafHash sha))[i]? = some (leafHash sha x) := by simp [hx]
  have hlenT := length_trails (innerHash sha) (emptyHash sha) (items.map (leafHash sha))
  have hi : i < (trails (innerHash sha) (emptyHash sha) (items.map (leafHash sha))).length := by
    rw [hlenT, List.length_map]; exact (List.getElem?_eq_some_iff.mp hx).1
  obtain ⟨aunts, haunts⟩ : ∃ aunts, (trails (innerHash sha) (emptyHash sha) (items.map (leafHash sha)))[i]? = some aunts :=
    ⟨_, List.getElem?_eq_getElem hi⟩
  have hget : (trails (innerHash sha) (emptyHash sha) (items.map (leafHash sha))).getD i [] = aunts := by
    rw [List.getD_eq_getElem?_getD, haunts, Option.getD_some]
  refine ⟨{ total := items.length, index := i, leafHash := leafHash sha x, aunts := aunts }, ?_, rfl, rfl, ?_⟩
  · rw [proofsFromByteSlices_eq, List.getElem?_mapIdx,
      (List.getElem?_zip_eq_some (z := (leafHash sha x, aunts))).mpr ⟨hleaf, haunts⟩]
    rfl
  · -- the path recomputes the root, which is a 32-byte hash
    have hroot := rootFromAunts_trails (innerHash sha) (emptyHash sha) hleaf
    rw [List.length_map, ← hashFromByteSlices_eq_root, hget] at hroot
    have hcompute : computeHashFromAunts sha i items.length (leafHash sha x) aunts = .ok (hashFromByteSlices sha items) :=
      (computeHashFromAunts_eq_ok sha).mpr ⟨by omega, by simpa using hroot⟩
    have hnil : hashFromByteSlices sha items ≠ [] := by
      rw [← List.length_pos_iff, length_hashFromByteSlices hlen hne, tmhashSize]; omega
    exact (Proof.verify_eq_ok sha).mpr ⟨hnil, Int.natCast_nonneg _, Int.natCast_nonneg _, rfl, hcompute⟩

/-- The proofs `ProofsFromByteSlices` makes pass `ValidateBasic` for up to `2 ^ MaxAunts` items: a path has
    a node for each level of the tree, and each node is a hash. -/
theorem validateBasic_proofsFromByteSlices {items : List (List UInt8)} (hsize : items.length ≤ 2 ^ maxAunts) :
    ∀ p ∈ (proofsFromByteSlices sha items).2, p.validateBasic = .ok () := by
  intro p hp
  rw [proofsFromByteSlices_eq, List.mem_mapIdx] at hp
  obtain ⟨i, hi, rfl⟩ := hp
  obtain ⟨hleaf, htrail⟩ := List.of_mem_zip (List.getElem_mem hi)
  have hQ : ∀ y ∈ items.map (leafHash sha), y.length = tmhashSize := by simp [leafHash, hlen]
  refine Proof.validateBasic_eq_ok.mpr ⟨Int.natCast_nonneg _, Int.natCast_nonneg _, hQ _ hleaf, ?_, ?_⟩
  · exact length_le_of_mem_trails (innerHash sha) (emptyHash sha) (by simpa using hsize) _ htrail
  · exact mem_of_mem_trails (innerHash sha) (emptyHash sha) (Q := fun h => h.length = tmhashSize)
      (fun _ _ => hlen _) hQ _ htrail

/-- A proof of the tree's size verifies only the item at its index, when no message the tree hashes has a
    second preimage: an inner node's message is its two 32-byte children one after the other. -/
theorem eq_of_verify {items : List (List UInt8)}
    (hspr : ∀ m ∈ treeMessages sha items, ∀ m', sha m' = sha m → m' = m) {p : Proof} {x : List UInt8}
    (htotal : p.total = items.length) (h : p.verify sha (hashFromByteSlices sha items) x = .ok ()) :
    0 ≤ p.index ∧ items[p.index.toNat]? = some x := by
  obtain ⟨-, -, -, hleaf, hr⟩ := (Proof.verify_eq_ok sha).mp h
  rw [hleaf] at hr
  obtain ⟨hidx', hr'⟩ := (computeHashFromAunts_eq_ok sha).mp hr
  rw [htotal, Int.toNat_natCast, hashFromByteSlices_eq_root] at hr'
  rw [← List.length_map (leafHash sha)] at hr'
  have hQ : ∀ y ∈ items.map (leafHash sha), y.length = tmhashSize := by simp [leafHash, hlen]
  -- no node is the node of two other children: their messages are equal, and so are the 32-byte halves
  have hcancel : ∀ c d, (c, d) ∈ nodes (innerHash sha) (emptyHash sha) (items.map (leafHash sha)) →
      ∀ a b, innerHash sha a b = innerHash sha c d →
        a.length = tmhashSize ∨ b.length = tmhashSize → a = c ∧ b = d := by
    intro c d hcd a b hab hab'
    obtain ⟨hc, hd⟩ := nodes_mem (innerHash sha) (emptyHash sha) (Q := fun h => h.length = tmhashSize)
      (fun _ _ => hlen _) hQ (c, d) hcd
    have hmsg := hspr _ (List.mem_append_right _ (List.mem_map.mpr ⟨(c, d), hcd, rfl⟩)) _ hab
    simp only [List.cons.injEq, true_and] at hmsg
    rcases hab' with ha | hb
    · exact List.append_inj hmsg (by rw [ha, hc])
    · exact List.append_inj' hmsg (by rw [hb, hd])
  have hleafEq := eq_of_rootFromAunts (innerHash sha) (emptyHash sha) (P := fun h => h.length = tmhashSize)
    (fun _ _ => hlen _) hcancel (hlen _) hr'
  -- the leaf's message is the item's
  rw [List.getElem?_map] at hleafEq
  obtain ⟨y, hy, hyx⟩ := Option.map_eq_some_iff.mp hleafEq
  have := hspr _ (List.mem_append_left _ (List.mem_map.mpr ⟨y, List.mem_of_getElem? hy, rfl⟩)) _ hyx.symm
  simp only [List.cons.injEq, true_and] at this
  exact ⟨hidx', by rw [hy, this]⟩

/-- Merkle proofs are complete and binding: `ProofsFromByteSlices` returns the root and, for each item,
    a proof of the item's index and the tree's size that verifies it; a proof of the tree's size
    verifies only the item at its index unless SHA-256 gives a message of the tree a second preimage;
    and `computeHashFromAunts` never panics. -/
theorem proofsFromByteSlices_complete_binding (items : List (List UInt8)) :
    (proofsFromByteSlices sha items).1 = hashFromByteSlices sha items ∧
    (proofsFromByteSlices sha items).2.length = items.length ∧
    (∀ (i : Nat) x, items[i]? = some x → ∃ p : Proof, (proofsFromByteSlices sha items).2[i]? = some p ∧
      p.total = items.length ∧ p.index = i ∧ p.verify sha (hashFromByteSlices sha items) x = .ok ()) ∧
    ((∀ m ∈ treeMessages sha items, ∀ m', sha m' = sha m → m' = m) →
      ∀ (p : Proof) x, p.total = items.length → p.verify sha (hashFromByteSlices sha items) x = .ok () →
        0 ≤ p.index ∧ items[p.index.toNat]? = some x) ∧
    ∀ index total leafHash aunts, computeHashFromAunts sha index total leafHash aunts ≠ .error .panic := by
  refine ⟨by rw [proofsFromByteSlices_eq], ?_, fun i x hx => verify_proofsFromByteSlices hlen hx,
    fun hspr p x htotal h => eq_of_verify hlen hspr htotal h, computeHashFromAunts_ne_panic sha⟩
  rw [proofsFromByteSlices_eq, List.length_mapIdx, List.length_zip, length_trails, Nat.min_self, List.length_map]

end

/-- Under a hash of 32-byte words, the second of two items has a proof that verifies it. -/
theorem proofsFromByteSlices_complete_binding_pair :
    ∃ p : Proof, (proofsFromByteSlices (fun _ => List.replicate 32 0) [[1], [2]]).2[1]? = some p ∧
      p.verify (fun _ => List.replicate 32 0) (hashFromByteSlices (fun _ => List.replicate 32 0) [[1], [2]]) [2] =
        .ok () := by
  obtain ⟨p, hp, -, -, hv⟩ := (@proofsFromByteSlices_complete_binding (fun _ => List.replicate 32 0)
    (fun _ => by simp [tmhashSize]) [[1], [2]]).2.2.1 1 [2] rfl
  exact ⟨p, hp, hv⟩

end

end Merkle

end CometBFT
