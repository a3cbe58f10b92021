import CometBFT.Crypto.Merkle.Proof
import CometBFT.Bits.BitArray
import CometBFT.Lib.Chunks

/-! Block parts (`types/part_set.go`). A block travels as parts of at most `BlockPartSizeBytes` bytes,
    each with a Merkle proof against the root of all of them. `NewPartSetFromData` cuts the data and
    proves each part; a receiver starts from the header with `NewPartSetFromHeader`, stores each part
    that `AddPart` accepts, and once all are in reads them one after the other through `GetReader`.

    A set keeps what it holds three times, in its parts, its bit array and its count, and its byte size
    beside them. Every run of `AddPart`, on any parts at all, keeps these in agreement and stores a part
    only at its own index, with a proof of the set's total that verifies it against the set's hash.
    The proof's own index is not compared with the part's: a part of the data can be stored at another
    part's slot. -/

namespace CometBFT

open Merkle BitArray

/-- `BlockPartSizeBytes`. -/
def blockPartSizeBytes : UInt32 := 65536

/-- `Part`. -/
structure Part where
  index : UInt32
  bytes : List UInt8
  proof : Proof
  deriving Repr, DecidableEq

/-- The errors of `Part.ValidateBasic`: `ErrPartTooBig`, `ErrPartInvalidSize`, and an error of the proof's
    `ValidateBasic`, which it wraps as a wrong proof. -/
inductive PartError
  | partTooBig
  | partInvalidSize
  | wrongProof (e : ValidateError)
  deriving Repr, DecidableEq

/-- `Part.ValidateBasic`; `Proof.Total - 1` is taken in `int64`. -/
def Part.validateBasic (part : Part) : Except PartError Unit :=
  if part.bytes.length > blockPartSizeBytes.toNat then .error .partTooBig
  -- all parts but the last have the constant size
  else if (part.index.toNat : Int) < wrapInt64 (part.proof.total - 1) ∧ part.bytes.length ≠ blockPartSizeBytes.toNat then
    .error .partInvalidSize
  else part.proof.validateBasic.mapError .wrongProof

/-- What `Part.ValidateBasic` checks. -/
theorem Part.validateBasic_eq_ok {part : Part} :
    part.validateBasic = .ok () ↔ part.bytes.length ≤ blockPartSizeBytes.toNat ∧
      ((part.index.toNat : Int) < wrapInt64 (part.proof.total - 1) → part.bytes.length = blockPartSizeBytes.toNat) ∧
      part.proof.validateBasic = .ok () := by
  unfold Part.validateBasic
  by_cases h1 : part.bytes.length > blockPartSizeBytes.toNat
  · simp [h1]
  rw [if_neg h1]
  have hle := Nat.le_of_not_gt h1
  by_cases h2 : (part.index.toNat : Int) < wrapInt64 (part.proof.total - 1)
  · by_cases h3 : part.bytes.length = blockPartSizeBytes.toNat
    · rw [if_neg fun h => h.2 h3]
      cases part.proof.validateBasic <;> simp [h3, Except.mapError]
    · rw [if_pos ⟨h2, h3⟩]
      simp [h2, h3]
  · rw [if_neg fun h => h2 h.1]
    cases part.proof.validateBasic <;> simp [hle, h2, Except.mapError]

/-- `ValidateBasic` reads the index of a full part nowhere: relabelled, the part gets the same answer. -/
theorem Part.validateBasic_relabel {part : Part} (hfull : part.bytes.length = blockPartSizeBytes.toNat) (i : UInt32) :
    { part with index := i }.validateBasic = part.validateBasic := by
  simp [Part.validateBasic, hfull]

/-- Relabelled as part 0 of more than one, a part that passes `ValidateBasic` still passes exactly when it is
    full. -/
theorem Part.validateBasic_zero_iff {part : Part} (hok : part.validateBasic = .ok ()) (htotal : 2 ≤ part.proof.total)
    (hmax : part.proof.total ≤ maxInt64) :
    { part with index := 0 }.validateBasic = .ok () ↔ part.bytes.length = blockPartSizeBytes.toNat := by
  refine ⟨fun h => ?_, fun hfull => (Part.validateBasic_relabel hfull 0).trans hok⟩
  have hwrap : wrapInt64 (part.proof.total - 1) = part.proof.total - 1 :=
    wrapInt64_of_mem (by unfold minInt64; omega) (by omega)
  exact (Part.validateBasic_eq_ok.mp h).2.1 (by simp only [hwrap, UInt32.toNat_zero]; omega)

/-- The errors of `AddPart`, and the panics of the code it runs. -/
inductive PartSetError
  /-- `ErrPartSetUnexpectedIndex` -/
  | unexpectedIndex
  /-- `ErrPartSetInvalidProof` -/
  | invalidProof
  /-- the index panic of `ps.parts[part.Index]` or of `SetIndex` -/
  | panic
  deriving Repr, DecidableEq

/-- `PartSet`; a missing part is `none`. The byte size is a sum of lengths of slices in memory, far below
    `MaxInt64`. -/
structure PartSet where
  total : UInt32
  hash : List UInt8
  parts : List (Option Part)
  partsBitArray : Option BitArray
  count : UInt32
  byteSize : ℕ
  deriving Repr, DecidableEq

namespace PartSet

/-- `Header`. -/
def header (ps : PartSet) : PartSetHeader := ⟨ps.total, ps.hash⟩

/-- `IsComplete`. -/
def isComplete (ps : PartSet) : Bool := ps.count == ps.total

end PartSet

/-- `NewPartSetFromHeader`. -/
def newPartSetFromHeader (header : PartSetHeader) : PartSet where
  total := header.total
  hash := header.hash
  parts := List.replicate header.total.toNat none
  partsBitArray := newBitArray header.total.toNat
  count := 0
  byteSize := 0

/-- `data[lo:hi]` for an upper bound within the slice's length, as the code's bounds are: `none` is the
    panic on `lo > hi`. -/
def sliceRange {α : Type} (l : List α) (lo hi : ℕ) : Option (List α) :=
  if lo ≤ hi ∧ hi ≤ l.length then some ((l.take hi).drop lo) else none

/-- `PartSetReader`: the index of the part it reads, the bytes of the parts (`none` for a nil part), and
    what is left of the part it reads. -/
structure PartSetReader where
  i : ℕ
  parts : List (Option (List UInt8))
  reader : List UInt8

/-- `NewPartSetReader`; `none` is the panic of `parts[0].Bytes` on no parts or a nil first part. -/
def newPartSetReader (parts : List (Option Part)) : Option PartSetReader :=
  match parts with
  | some p :: _ => some ⟨0, parts.map (·.map Part.bytes), p.bytes⟩
  | _ => none

/-- `GetReader`; `none` is its panic on an incomplete set. -/
def PartSet.getReader (ps : PartSet) : Option PartSetReader :=
  if ps.isComplete then newPartSetReader ps.parts else none

/-- `PartSetReader.Read` into a buffer of `len` bytes: the bytes read, the reader after, and whether it
    returns `io.EOF`; `none` is the panic on a nil part. -/
def PartSetReader.read (psr : PartSetReader) (len : ℕ) : Option (List UInt8 × PartSetReader × Bool) :=
  if len ≤ psr.reader.length then
    -- `bytes.Reader.Read` returns `io.EOF` at the end of its slice, whatever the buffer
    if psr.reader = [] then some ([], psr, true)
    else some (psr.reader.take len, { psr with reader := psr.reader.drop len }, false)
  else if 0 < psr.reader.length then
    -- `psr.Read(p[:readerLen])` takes the rest of the part by the branch above, without an error
    (PartSetReader.read { psr with reader := [] } (len - psr.reader.length)).map
      fun r => (psr.reader ++ r.1, r.2)
  else if psr.parts.length ≤ psr.i + 1 then some ([], { psr with i := psr.i + 1 }, true)
  else
    match psr.parts[psr.i + 1]? with
    | some (some bytes) => PartSetReader.read { psr with i := psr.i + 1, reader := bytes } len
    | _ => none
termination_by 2 * (psr.parts.length - psr.i) + min psr.reader.length 1
decreasing_by
  · simp only [List.length_nil]
    omega
  · omega

/-- `Read` calls with buffers of the lengths `lens`, up to the first that returns `io.EOF`, as `io.ReadAll`
    makes them: the bytes read, and whether the end was reached; `none` is a panic. -/
def PartSetReader.readLoop : PartSetReader → List ℕ → Option (List UInt8 × Bool)
  | _, [] => some ([], false)
  | psr, len :: lens => (psr.read len).bind fun (out, psr, eof) =>
    if eof then some (out, true) else (psr.readLoop lens).map fun (rest, eof) => (out ++ rest, eof)

section
variable (sha : List UInt8 → List UInt8)

/-- `NewPartSetFromData`, in `uint32` arithmetic; `none` is a panic: the division by a zero part size, or
    a slice out of range. -/
def newPartSetFromData (data : List UInt8) (partSize : UInt32) : Option PartSet :=
  if partSize = 0 then none
  else do
    let total : UInt32 := (data.length.toUInt32 + partSize - 1) / partSize
    let partsBytes ← (List.range total.toNat).mapM fun i =>
      sliceRange data (i.toUInt32 * partSize).toNat (min data.length ((i.toUInt32 + 1) * partSize).toNat)
    let partsBitArray ← (List.range total.toNat).foldlM
      (fun bA (i : ℕ) => (setIndex bA i true).map Prod.fst) (newBitArray total.toNat)
    let (root, proofs) := proofsFromByteSlices sha partsBytes
    pure {
      total, hash := root,
      parts := (partsBytes.zip proofs).mapIdx fun i (bytes, proof) => some ⟨i.toUInt32, bytes, proof⟩,
      partsBitArray, count := total, byteSize := data.length }

/-- `AddPart`: whether the part was added, and the set after; an error leaves the set as it was. -/
def PartSet.addPart (ps : PartSet) (part : Part) : Except PartSetError (Bool × PartSet) :=
  if part.index ≥ ps.total then .error .unexpectedIndex
  else
    match ps.parts[part.index.toNat]? with
    | none => .error .panic
    | some (some _) => .ok (false, ps)
    | some none =>
      if part.proof.total ≠ (ps.total.toNat : Int) then .error .invalidProof
      else
        match part.proof.verify sha ps.hash part.bytes with
        | .error _ => .error .invalidProof
        | .ok () =>
          match setIndex ps.partsBitArray part.index.toNat true with
          | none => .error .panic
          | some (partsBitArray, _) =>
            .ok (true, { ps with
              parts := ps.parts.set part.index.toNat (some part), partsBitArray := partsBitArray,
              count := ps.count + 1, byteSize := ps.byteSize + part.bytes.length })

/-- `AddPart` on the parts one after the other, as the consensus state calls it for each block part it
    receives: an error leaves the set as it was, and `none` is a panic. -/
def PartSet.addParts (ps : PartSet) : List Part → Option PartSet
  | [] => some ps
  | part :: parts =>
    match ps.addPart sha part with
    | .ok (_, ps') => ps'.addParts parts
    | .error .panic => none
    | .error _ => ps.addParts parts

/-! ### What `AddPart` does -/

/-- `AddPart` leaves the set as it is, or stores the part at its index, in an empty slot, after its proof
    of the set's total verified. -/
theorem PartSet.addPart_eq_ok {ps ps' : PartSet} {part : Part} {added : Bool}
    (h : ps.addPart sha part = .ok (added, ps')) :
    (added = false ∧ ps' = ps) ∨
      (added = true ∧ part.index < ps.total ∧ ps.parts[part.index.toNat]? = some none ∧
        part.proof.total = ps.total.toNat ∧ part.proof.verify sha ps.hash part.bytes = .ok () ∧
        ∃ bA b, setIndex ps.partsBitArray part.index.toNat true = some (bA, b) ∧
          ps' = { ps with
            parts := ps.parts.set part.index.toNat (some part), partsBitArray := bA,
            count := ps.count + 1, byteSize := ps.byteSize + part.bytes.length }) := by
  unfold PartSet.addPart at h
  by_cases hidx : part.index ≥ ps.total
  · rw [if_pos hidx] at h
    cases h
  rw [if_neg hidx] at h
  split at h
  · cases h
  · -- the slot is taken
    obtain ⟨rfl, rfl⟩ := Prod.mk.inj (Except.ok.inj h)
    exact .inl ⟨rfl, rfl⟩
  · rename_i hslot
    by_cases htotal : part.proof.total ≠ (ps.total.toNat : Int)
    · rw [if_pos htotal] at h
      cases h
    rw [if_neg htotal] at h
    split at h
    · cases h
    · rename_i hverify
      split at h
      · cases h
      · rename_i bA b hset
        obtain ⟨rfl, rfl⟩ := Prod.mk.inj (Except.ok.inj h)
        exact .inr ⟨rfl, UInt32.not_le.mp hidx, hslot, not_not.mp htotal, hverify, bA, b, hset, rfl⟩

/-! ### The invariant -/

/-- The part at slot `t`, if there is one. -/
def PartSet.partAt (ps : PartSet) (t : ℕ) : Option Part := ps.parts[t]?.join

/-- What a part set holds, in its three views and its byte size, and what it knows of each stored part. -/
structure PartSet.Inv (ps : PartSet) : Prop where
  length_parts : ps.parts.length = ps.total.toNat
  sized : Sized ps.total.toNat ps.partsBitArray
  bit_eq : ∀ t, bit ps.partsBitArray t = (ps.partAt t).isSome
  count_eq : ps.count.toNat = ps.parts.countP Option.isSome
  byteSize_eq : ps.byteSize = (ps.parts.map fun p => (p.map fun p => p.bytes.length).getD 0).sum
  stored : ∀ t p, ps.partAt t = some p →
    p.index.toNat = t ∧ p.proof.total = ps.total.toNat ∧ p.proof.verify sha ps.hash p.bytes = .ok ()

theorem inv_newPartSetFromHeader (header : PartSetHeader) : (newPartSetFromHeader header).Inv sha := by
  obtain ⟨hsized, hbit⟩ := newBitArray_sized header.total.toNat
  refine ⟨List.length_replicate, hsized, fun t => ?_, ?_, ?_, ?_⟩
  · simp only [newPartSetFromHeader, PartSet.partAt, List.getElem?_replicate, hbit]
    split_ifs <;> rfl
  · simp [newPartSetFromHeader, List.countP_replicate]
  · simp [newPartSetFromHeader]
  · intro t p hp
    simp only [newPartSetFromHeader, PartSet.partAt, List.getElem?_replicate] at hp
    split_ifs at hp <;> cases hp

theorem partAt_set {ps : PartSet} {j t : ℕ} {part : Part} (hj : j < ps.parts.length) :
    (ps.parts.set j (some part))[t]?.join = if t = j then some part else ps.partAt t := by
  rw [List.getElem?_set]
  by_cases ht : t = j
  · rw [if_pos ht.symm, if_pos hj, if_pos ht]
    rfl
  · rw [if_neg (Ne.symm ht), if_neg ht]
    rfl

/-- Filling an empty slot counts one more part. -/
theorem countP_set_some {l : List (Option Part)} {j : ℕ} {part : Part} (hj : l[j]? = some none) :
    (l.set j (some part)).countP Option.isSome = l.countP Option.isSome + 1 ∧
      l.countP Option.isSome < l.length := by
  obtain ⟨hlt, hnone⟩ := List.getElem?_eq_some_iff.mp hj
  refine ⟨?_, ?_⟩
  · rw [List.countP_set hlt, hnone]
    simp
  · have hsplit := List.length_eq_countP_add_countP Option.isSome (l := l)
    have hpos : 0 < l.countP fun a => decide ¬a.isSome = true :=
      List.countP_pos_iff.mpr ⟨none, List.mem_of_getElem? hj, by simp⟩
    omega

/-- Filling an empty slot adds the part's length to the sum of the lengths. -/
theorem sum_set_some {l : List (Option Part)} {j : ℕ} {part : Part} (hj : l[j]? = some none) :
    ((l.set j (some part)).map fun p => (p.map fun p => p.bytes.length).getD 0).sum =
      (l.map fun p => (p.map fun p => p.bytes.length).getD 0).sum + part.bytes.length := by
  obtain ⟨hlt, hnone⟩ := List.getElem?_eq_some_iff.mp hj
  have hlen : j < (l.map fun p => (p.map fun p => p.bytes.length).getD 0).length := by
    rw [List.length_map]
    exact hlt
  have hzero : (l.map fun p => (p.map fun p => p.bytes.length).getD 0)[j] = 0 := by
    rw [List.getElem_map, hnone]
    rfl
  -- the sum is the same with the slot's zero set again
  have hold := List.sum_set (l.map fun p => (p.map fun p => p.bytes.length).getD 0) j
    (l.map fun p => (p.map fun p => p.bytes.length).getD 0)[j]
  rw [List.set_getElem_self, if_pos hlen, hzero] at hold
  rw [List.map_set, List.sum_set, if_pos hlen, hold]
  simp only [Option.map_some, Option.getD_some]
  omega

/-- `AddPart` keeps the invariant. -/
theorem PartSet.Inv.addPart {ps ps' : PartSet} {part : Part} {added : Bool} (hi : ps.Inv sha)
    (h : ps.addPart sha part = .ok (added, ps')) : ps'.Inv sha := by
  rcases PartSet.addPart_eq_ok sha h with ⟨-, rfl⟩ | ⟨-, hidx, hslot, htotal, hverify, bA, b, hset, rfl⟩
  · exact hi
  have hj : part.index.toNat < ps.parts.length := (List.getElem?_eq_some_iff.mp hslot).1
  obtain ⟨bA', hset', hsized', hbit'⟩ := hi.sized.setIndex_true (hi.length_parts ▸ hj)
  obtain ⟨rfl, -⟩ := Prod.mk.inj (Option.some.inj (hset.symm.trans hset'))
  obtain ⟨hcount, hlt⟩ := countP_set_some hslot
  refine ⟨by simp [hi.length_parts], hsized', fun t => ?_, ?_, ?_, fun t p hp => ?_⟩
  · -- the bit array gains the bit of the slot that gains the part
    simp only [PartSet.partAt]
    rw [hbit', hi.bit_eq, partAt_set hj]
    by_cases ht : t = part.index.toNat
    · simp [ht]
    · simp [ht]
  · -- the count stays below the total, so `count + 1` does not wrap
    have hbound : ps.count.toNat + 1 < 2 ^ 32 := by
      have htotal := ps.total.toNat_lt
      have hlen := hi.length_parts
      rw [hi.count_eq]
      omega
    simp only [UInt32.toNat_add, UInt32.toNat_one, Nat.mod_eq_of_lt hbound]
    rw [hi.count_eq, hcount]
  · simp only
    rw [hi.byteSize_eq, sum_set_some hslot]
  · simp only [PartSet.partAt] at hp
    rw [partAt_set hj] at hp
    by_cases ht : t = part.index.toNat
    · rw [if_pos ht] at hp
      obtain rfl := Option.some.inj hp
      exact ⟨ht.symm, htotal, hverify⟩
    · rw [if_neg ht] at hp
      exact hi.stored t p hp

/-- On a set that keeps the invariant, `AddPart` does not panic. -/
theorem PartSet.Inv.addPart_ne_panic {ps : PartSet} (hi : ps.Inv sha) (part : Part) :
    ps.addPart sha part ≠ .error .panic := by
  unfold PartSet.addPart
  by_cases hidx : part.index ≥ ps.total
  · rw [if_pos hidx]
    simp
  rw [if_neg hidx]
  -- the slot exists, and so does the bit
  have hj : part.index.toNat < ps.parts.length := by
    rw [hi.length_parts]
    exact UInt32.lt_iff_toNat_lt.mp (UInt32.not_le.mp hidx)
  obtain ⟨bA', hset', -⟩ := hi.sized.setIndex_true (hi.length_parts ▸ hj)
  rw [List.getElem?_eq_getElem hj]
  cases ps.parts[part.index.toNat] with
  | some p => simp
  | none =>
    dsimp only
    by_cases htotal : part.proof.total ≠ (ps.total.toNat : Int)
    · rw [if_pos htotal]
      simp
    rw [if_neg htotal]
    cases part.proof.verify sha ps.hash part.bytes with
    | error e => simp
    | ok u => simp [hset']

/-- Every run of `AddPart`, on any parts, returns without a panic and keeps the invariant. -/
theorem PartSet.Inv.addParts {ps : PartSet} (hi : ps.Inv sha) (parts : List Part) :
    ∃ ps', ps.addParts sha parts = some ps' ∧ ps'.Inv sha := by
  induction parts generalizing ps with
  | nil => exact ⟨ps, rfl, hi⟩
  | cons part parts ih =>
    rw [PartSet.addParts]
    split
    · rename_i added ps' h
      exact ih (hi.addPart sha h)
    · exact absurd ‹_› (hi.addPart_ne_panic sha part)
    · exact ih hi

/-! ### Runs of `AddPart` -/

/-- `AddPart` keeps the set's total and hash, keeps every stored part, and stores only the part it is
    given. -/
theorem PartSet.addPart_keeps {ps ps' : PartSet} {part : Part} {added : Bool}
    (h : ps.addPart sha part = .ok (added, ps')) :
    ps'.total = ps.total ∧ ps'.hash = ps.hash ∧ (∀ t p, ps.partAt t = some p → ps'.partAt t = some p) ∧
      ∀ t p, ps'.partAt t = some p → ps.partAt t = some p ∨ p = part := by
  rcases PartSet.addPart_eq_ok sha h with ⟨-, rfl⟩ | ⟨-, -, hslot, -, -, bA, b, -, rfl⟩
  · exact ⟨rfl, rfl, fun _ _ hp => hp, fun _ _ hp => .inl hp⟩
  have hj : part.index.toNat < ps.parts.length := (List.getElem?_eq_some_iff.mp hslot).1
  refine ⟨rfl, rfl, fun t p hp => ?_, fun t p hp => ?_⟩
  · -- the slot that was empty is not the slot of a stored part
    have ht : t ≠ part.index.toNat := by
      rintro rfl
      simp [PartSet.partAt, hslot] at hp
    simp only [PartSet.partAt]
    rw [partAt_set hj, if_neg ht]
    exact hp
  · simp only [PartSet.partAt] at hp
    rw [partAt_set hj] at hp
    split_ifs at hp
    · exact .inr (Option.some.inj hp).symm
    · exact .inl hp

/-- A part at an index below the total, with a proof of the total that verifies it against the set's
    hash, is in its slot after `AddPart`: it was there, or it is added. -/
theorem PartSet.Inv.addPart_fills {ps : PartSet} (hi : ps.Inv sha) {part : Part} (hidx : part.index < ps.total)
    (htotal : part.proof.total = ps.total.toNat) (hverify : part.proof.verify sha ps.hash part.bytes = .ok ()) :
    ∃ added ps', ps.addPart sha part = .ok (added, ps') ∧ (ps'.partAt part.index.toNat).isSome := by
  have hj : part.index.toNat < ps.parts.length := by
    rw [hi.length_parts]
    exact UInt32.lt_iff_toNat_lt.mp hidx
  obtain ⟨bA', hset', -⟩ := hi.sized.setIndex_true (hi.length_parts ▸ hj)
  unfold PartSet.addPart
  rw [if_neg (UInt32.not_le.mpr hidx), List.getElem?_eq_getElem hj]
  cases hslot : ps.parts[part.index.toNat] with
  | some p =>
    refine ⟨false, ps, rfl, ?_⟩
    simp [PartSet.partAt, List.getElem?_eq_getElem hj, hslot]
  | none =>
    dsimp only
    rw [if_neg (not_not.mpr htotal), hverify]
    dsimp only
    rw [hset']
    refine ⟨true, _, rfl, ?_⟩
    simp only [PartSet.partAt]
    rw [partAt_set hj, if_pos rfl]
    rfl

section
variable {ps ps' : PartSet} {parts : List Part}

/-- One call of a run: the set after it, from which the rest of the run goes on. -/
theorem PartSet.addParts_cons {part : Part} (h : ps.addParts sha (part :: parts) = some ps') :
    (∃ added ps₁, ps.addPart sha part = .ok (added, ps₁) ∧ ps₁.addParts sha parts = some ps') ∨
      (∃ e, e ≠ .panic ∧ ps.addPart sha part = .error e ∧ ps.addParts sha parts = some ps') := by
  rw [PartSet.addParts] at h
  cases hadd : ps.addPart sha part with
  | ok r =>
    rw [hadd] at h
    exact .inl ⟨r.1, r.2, rfl, h⟩
  | error e =>
    rw [hadd] at h
    cases e with
    | panic => cases h
    | unexpectedIndex => exact .inr ⟨_, by simp, rfl, h⟩
    | invalidProof => exact .inr ⟨_, by simp, rfl, h⟩

/-- A run of `AddPart` keeps the set's total and hash and every stored part, and stores only parts it is
    given. -/
theorem PartSet.addParts_keeps (hi : ps.Inv sha) (h : ps.addParts sha parts = some ps') :
    ps'.total = ps.total ∧ ps'.hash = ps.hash ∧ (∀ t p, ps.partAt t = some p → ps'.partAt t = some p) ∧
      ∀ t p, ps'.partAt t = some p → ps.partAt t = some p ∨ p ∈ parts := by
  induction parts generalizing ps with
  | nil =>
    obtain rfl := Option.some.inj h
    exact ⟨rfl, rfl, fun _ _ hp => hp, fun _ _ hp => .inl hp⟩
  | cons part parts ih =>
    rcases PartSet.addParts_cons sha h with ⟨added, ps₁, hadd, hrest⟩ | ⟨e, -, -, hrest⟩
    · obtain ⟨htotal₁, hhash₁, hkeep₁, hfrom₁⟩ := PartSet.addPart_keeps sha hadd
      obtain ⟨htotal', hhash', hkeep', hfrom'⟩ := ih (hi.addPart sha hadd) hrest
      refine ⟨htotal'.trans htotal₁, hhash'.trans hhash₁, fun t p hp => hkeep' t p (hkeep₁ t p hp),
        fun t p hp => ?_⟩
      rcases hfrom' t p hp with hp₁ | hmem
      · rcases hfrom₁ t p hp₁ with hp₀ | rfl
        · exact .inl hp₀
        · exact .inr List.mem_cons_self
      · exact .inr (List.mem_cons_of_mem _ hmem)
    · obtain ⟨htotal', hhash', hkeep', hfrom'⟩ := ih hi hrest
      refine ⟨htotal', hhash', hkeep', fun t p hp => ?_⟩
      rcases hfrom' t p hp with hp₀ | hmem
      · exact .inl hp₀
      · exact .inr (List.mem_cons_of_mem _ hmem)

/-- After a run of `AddPart`, the slot of every part of the run that is below the total, of the total, and
    verified against the set's hash is taken. -/
theorem PartSet.addParts_fills (hi : ps.Inv sha) (h : ps.addParts sha parts = some ps') :
    ∀ part ∈ parts, part.index < ps.total → part.proof.total = ps.total.toNat →
      part.proof.verify sha ps.hash part.bytes = .ok () → (ps'.partAt part.index.toNat).isSome := by
  induction parts generalizing ps with
  | nil => exact fun _ hp => absurd hp List.not_mem_nil
  | cons part parts ih =>
    intro g hg hidx htotal hverify
    rcases PartSet.addParts_cons sha h with ⟨added, ps₁, hadd, hrest⟩ | ⟨e, hne, hadd, hrest⟩
    · obtain ⟨htotal₁, hhash₁, -, -⟩ := PartSet.addPart_keeps sha hadd
      rcases List.mem_cons.mp hg with rfl | hg
      · -- this call leaves `g` in its slot, and the rest of the run keeps it
        obtain ⟨added', ps₂, hadd', hfill⟩ := hi.addPart_fills sha hidx htotal hverify
        obtain ⟨-, rfl⟩ := Prod.mk.inj (Except.ok.inj (hadd'.symm.trans hadd))
        obtain ⟨p, hp⟩ := Option.isSome_iff_exists.mp hfill
        obtain ⟨-, -, hkeep, -⟩ := PartSet.addParts_keeps sha (hi.addPart sha hadd) hrest
        rw [hkeep _ _ hp]
        rfl
      · rw [← htotal₁] at hidx htotal
        rw [← hhash₁] at hverify
        exact ih (hi.addPart sha hadd) hrest g hg hidx htotal hverify
    · rcases List.mem_cons.mp hg with rfl | hg
      · -- such a part is never refused
        obtain ⟨added', ps₂, hadd', -⟩ := hi.addPart_fills sha hidx htotal hverify
        rw [hadd] at hadd'
        cases hadd'
      · exact ih hi hrest g hg hidx htotal hverify

end


/-! ### The set of the data -/

/-- The bytes of the parts of `data`: its chunks of `partSize` bytes. -/
def partsBytesOf (data : List UInt8) (partSize : ℕ) : List (List UInt8) :=
  (List.range (Chunks.count partSize data.length)).map (Chunks.chunk partSize data)

theorem mapM_eq_some_map {α β : Type} {f : α → Option β} {g : α → β} :
    ∀ {l : List α}, (∀ a ∈ l, f a = some (g a)) → l.mapM f = some (l.map g)
  | [], _ => rfl
  | a :: l, h => by
    rw [List.mapM_cons, h a List.mem_cons_self, mapM_eq_some_map fun b hb => h b (List.mem_cons_of_mem _ hb)]
    rfl

/-- Setting the bits of a list of indices below the size, one after the other. -/
theorem foldlM_setIndex {n : ℕ} : ∀ {l : List ℕ} {bA : Option BitArray}, Sized n bA → (∀ i ∈ l, i < n) →
    ∃ bA', l.foldlM (fun bA (i : ℕ) => (setIndex bA i true).map Prod.fst) bA = some bA' ∧ Sized n bA' ∧
      ∀ t, bit bA' t = (bit bA t || decide (t ∈ l))
  | [], bA, hs, _ => ⟨bA, rfl, hs, fun t => by simp⟩
  | i :: l, bA, hs, hl => by
    obtain ⟨bA₁, hset, hs₁, hbit₁⟩ := hs.setIndex_true (hl i List.mem_cons_self)
    obtain ⟨bA', hfold, hs', hbit'⟩ := foldlM_setIndex hs₁ fun j hj => hl j (List.mem_cons_of_mem _ hj)
    refine ⟨bA', ?_, hs', fun t => ?_⟩
    · rw [List.foldlM_cons, hset]
      exact hfold
    · rw [hbit', hbit₁]
      by_cases ht : t = i <;> simp [ht]

section
variable {data : List UInt8} {partSize : UInt32}

/-- With the data and a part size that fit in `uint32`, the number of parts is the chunk count. -/
theorem total_toNat (hpos : 0 < partSize.toNat) (hfit : data.length + partSize.toNat ≤ 2 ^ 32) :
    ((data.length.toUInt32 + partSize - 1) / partSize).toNat = Chunks.count partSize.toNat data.length := by
  have hlen : data.length.toUInt32.toNat = data.length := by
    simp only [Nat.toUInt32_eq, UInt32.toNat_ofNat']
    exact Nat.mod_eq_of_lt (by omega)
  rw [UInt32.toNat_div, UInt32.toNat_sub, UInt32.toNat_add, hlen, UInt32.toNat_one, Chunks.count]
  congr 1
  omega

/-- The slice of part `i` is its chunk, when no product wraps. -/
theorem sliceRange_part (hpos : 0 < partSize.toNat) (hfit : data.length + partSize.toNat ≤ 2 ^ 32) {i : ℕ}
    (hi : i < Chunks.count partSize.toNat data.length) :
    sliceRange data (i.toUInt32 * partSize).toNat (min data.length ((i.toUInt32 + 1) * partSize).toNat) =
      some (Chunks.chunk partSize.toNat data i) := by
  -- the part's end is within the chunk count's bytes, below `2^32`
  have hend : (i + 1) * partSize.toNat ≤ Chunks.count partSize.toNat data.length * partSize.toNat :=
    Nat.mul_le_mul_right _ hi
  have hcount := Chunks.count_mul_lt hpos data.length
  rw [Nat.succ_mul] at hend
  have hip : i ≤ i * partSize.toNat := Nat.le_mul_of_pos_right i hpos
  have hi32 : i + 1 < 2 ^ 32 := by omega
  have hlo : (i.toUInt32 * partSize).toNat = i * partSize.toNat := by
    rw [UInt32.toNat_mul, Nat.toUInt32_eq, UInt32.toNat_ofNat', Nat.mod_eq_of_lt (by omega : i < 2 ^ 32)]
    exact Nat.mod_eq_of_lt (by omega)
  have hhi : ((i.toUInt32 + 1) * partSize).toNat = i * partSize.toNat + partSize.toNat := by
    rw [UInt32.toNat_mul, UInt32.toNat_add, Nat.toUInt32_eq, UInt32.toNat_ofNat',
      Nat.mod_eq_of_lt (by omega : i < 2 ^ 32), UInt32.toNat_one, Nat.mod_eq_of_lt hi32, Nat.succ_mul]
    exact Nat.mod_eq_of_lt (by omega)
  rw [hlo, hhi, sliceRange, if_pos (by omega), Chunks.chunk, List.drop_take, Option.some.injEq,
    List.take_eq_take_iff, List.length_drop]
  omega

end

section
variable {sha} (hlen : ∀ m, (sha m).length = tmhashSize)
include hlen

/-- Slot `t` of the parts `NewPartSetFromData` makes of its slices: slice `t`, with a proof of index `t`
    and of the number of slices that verifies it against their root, one of those `ProofsFromByteSlices`
    makes. -/
theorem getElem?_dataParts {items : List (List UInt8)} {t : ℕ} {x : List UInt8} (hx : items[t]? = some x) :
    ∃ p : Proof, ((items.zip (proofsFromByteSlices sha items).2).mapIdx
        fun i (bytes, proof) => some (⟨i.toUInt32, bytes, proof⟩ : Part))[t]? = some (some ⟨t.toUInt32, x, p⟩) ∧
      p.total = items.length ∧ p.index = t ∧ p.verify sha (hashFromByteSlices sha items) x = .ok () ∧
      p ∈ (proofsFromByteSlices sha items).2 := by
  obtain ⟨p, hp, htotal, hindex, hverify⟩ := verify_proofsFromByteSlices hlen hx
  refine ⟨p, ?_, htotal, hindex, hverify, List.mem_of_getElem? hp⟩
  rw [List.getElem?_mapIdx, (List.getElem?_zip_eq_some (z := (x, p))).mpr ⟨hx, hp⟩]
  rfl

/-- What `NewPartSetFromData` returns, for data and a part size that fit in `uint32`: a set that keeps the
    invariant, complete, of the chunks of the data, in order, each with a proof of its own index, under the
    root of the chunks. -/
theorem newPartSetFromData_spec {data : List UInt8} {partSize : UInt32} (hpos : 0 < partSize.toNat)
    (hfit : data.length + partSize.toNat ≤ 2 ^ 32) :
    ∃ ps, newPartSetFromData sha data partSize = some ps ∧ ps.Inv sha ∧ ps.isComplete ∧
      ps.total.toNat = (partsBytesOf data partSize.toNat).length ∧
      ps.hash = hashFromByteSlices sha (partsBytesOf data partSize.toNat) ∧
      ∀ t, (∀ p, ps.partAt t = some p → p.proof.index = t ∧ (partsBytesOf data partSize.toNat)[t]? = some p.bytes ∧
          p.proof.validateBasic = .ok ()) ∧
        (t < ps.total.toNat → (ps.partAt t).isSome) := by
  have hp0 : partSize ≠ 0 := by
    rintro rfl
    simp at hpos
  have htotal := total_toNat hpos hfit
  have hcount : (partsBytesOf data partSize.toNat).length = Chunks.count partSize.toNat data.length := by
    simp [partsBytesOf]
  have hslices : (List.range ((data.length.toUInt32 + partSize - 1) / partSize).toNat).mapM
      (fun i => sliceRange data (i.toUInt32 * partSize).toNat (min data.length ((i.toUInt32 + 1) * partSize).toNat)) =
      some (partsBytesOf data partSize.toNat) := by
    rw [htotal]
    exact mapM_eq_some_map fun i hi => sliceRange_part hpos hfit (List.mem_range.mp hi)
  obtain ⟨bA, hfold, hsized, hbit⟩ :=
    foldlM_setIndex (newBitArray_sized ((data.length.toUInt32 + partSize - 1) / partSize).toNat).1
      (l := List.range ((data.length.toUInt32 + partSize - 1) / partSize).toNat) fun i hi => List.mem_range.mp hi
  have hdef : newPartSetFromData sha data partSize = some
      { total := (data.length.toUInt32 + partSize - 1) / partSize,
        hash := (proofsFromByteSlices sha (partsBytesOf data partSize.toNat)).1,
        parts := ((partsBytesOf data partSize.toNat).zip (proofsFromByteSlices sha (partsBytesOf data partSize.toNat)).2).mapIdx
          fun i (bytes, proof) => some ⟨i.toUInt32, bytes, proof⟩,
        partsBitArray := bA, count := (data.length.toUInt32 + partSize - 1) / partSize, byteSize := data.length } := by
    rw [newPartSetFromData, if_neg hp0]
    simp only [hslices, Option.bind_eq_bind, Option.bind_some, hfold]
    rfl
  set items := partsBytesOf data partSize.toNat with hitems
  set parts := (items.zip (proofsFromByteSlices sha items).2).mapIdx
    fun i (bytes, proof) => some (⟨i.toUInt32, bytes, proof⟩ : Part) with hparts
  -- slot `t` holds chunk `t` with its proof, up to the number of chunks, and nothing after
  have hnone : ∀ t, items.length ≤ t → parts[t]? = none := by
    intro t ht
    rw [List.getElem?_eq_none_iff, List.length_mapIdx, List.length_zip]
    omega
  have hlenp : parts.length = items.length := by
    refine le_antisymm (by rw [List.length_mapIdx, List.length_zip]; omega) (not_lt.mp fun hlt => ?_)
    obtain ⟨x, hx⟩ : ∃ x, items[parts.length]? = some x := ⟨_, List.getElem?_eq_getElem hlt⟩
    obtain ⟨pr, hpr, -⟩ := getElem?_dataParts hlen hx
    rw [List.getElem?_eq_none_iff.mpr le_rfl] at hpr
    cases hpr
  have hat : ∀ (t : ℕ) (p : Part), (parts[t]?).join = some p → ∃ x, items[t]? = some x ∧ p.index = t.toUInt32 ∧ p.bytes = x ∧
      p.proof.total = items.length ∧ p.proof.index = t ∧
      p.proof.verify sha (hashFromByteSlices sha items) p.bytes = .ok () ∧ p.proof ∈ (proofsFromByteSlices sha items).2 := by
    intro t p hp
    by_cases ht : t < items.length
    · obtain ⟨pr, hpr, htot, hidx, hver, hmem⟩ := getElem?_dataParts hlen (List.getElem?_eq_getElem ht)
      rw [hpr] at hp
      obtain rfl := Option.some.inj hp
      exact ⟨_, List.getElem?_eq_getElem ht, rfl, rfl, htot, hidx, hver, hmem⟩
    · rw [hnone t (not_lt.mp ht)] at hp
      cases hp
  have hsome : ∀ t < items.length, (parts[t]?).join.isSome := by
    intro t ht
    obtain ⟨pr, hpr, -⟩ := getElem?_dataParts hlen (List.getElem?_eq_getElem ht)
    rw [hpr]
    rfl
  have hT : ((data.length.toUInt32 + partSize - 1) / partSize).toNat = items.length := htotal.trans hcount.symm
  have hroot : (proofsFromByteSlices sha items).1 = hashFromByteSlices sha items := by
    rw [proofsFromByteSlices_eq]
  refine ⟨_, hdef, ⟨hlenp.trans hT.symm, hsized, fun t => ?_, ?_, ?_, fun t p hp => ?_⟩, ?_, hT, hroot,
    fun t => ⟨fun p hp => ?_, fun ht => hsome t (hT ▸ ht)⟩⟩
  · -- every bit below the total is set
    rw [hbit, (newBitArray_sized _).2, Bool.false_or]
    simp only [List.mem_range, hT]
    by_cases ht : t < items.length
    · simp only [PartSet.partAt, ht, decide_true]
      exact (hsome t ht).symm
    · rw [decide_eq_false ht]
      simp only [PartSet.partAt]
      rw [hnone t (not_lt.mp ht)]
      rfl
  · -- every slot is taken
    rw [hT, ← hlenp, eq_comm, List.countP_eq_length]
    intro a ha
    obtain ⟨t, ht, rfl⟩ := List.getElem_of_mem ha
    have := hsome t (hlenp ▸ ht)
    rwa [List.getElem?_eq_getElem ht] at this
  · -- the parts' lengths add up to the data's
    have hmap : (parts.map fun p => (p.map fun p => p.bytes.length).getD 0) = items.map List.length := by
      apply List.ext_getElem?
      intro t
      rw [List.getElem?_map, List.getElem?_map]
      by_cases ht : t < items.length
      · obtain ⟨pr, hpr, -⟩ := getElem?_dataParts hlen (List.getElem?_eq_getElem ht)
        rw [hpr, List.getElem?_eq_getElem ht]
        rfl
      · rw [hnone t (not_lt.mp ht), List.getElem?_eq_none_iff.mpr (not_lt.mp ht)]
        rfl
    simp only
    rw [hmap, ← List.length_flatten, hitems, partsBytesOf, Chunks.flatten_chunks hpos]
  · -- a stored part is a chunk at its own index, with its proof
    obtain ⟨x, hx, hindex, rfl, htot, -, hver, -⟩ := hat t p hp
    have ht : t < 2 ^ 32 := by
      have := ((data.length.toUInt32 + partSize - 1) / partSize).toNat_lt
      have := (List.getElem?_eq_some_iff.mp hx).1
      omega
    refine ⟨?_, htot.trans (congrArg _ hT.symm), ?_⟩
    · rw [hindex, Nat.toUInt32_eq, UInt32.toNat_ofNat']
      exact Nat.mod_eq_of_lt ht
    · simp only
      rw [hroot]
      exact hver
  · simp [PartSet.isComplete]
  · -- the proof is one `ProofsFromByteSlices` makes, of fewer than `2 ^ 32` items
    obtain ⟨x, hx, -, rfl, -, hidx, -, hmem⟩ := hat t p hp
    have hsize : items.length ≤ 2 ^ maxAunts := by
      have := ((data.length.toUInt32 + partSize - 1) / partSize).toNat_lt
      rw [hT] at this
      exact this.le.trans (Nat.pow_le_pow_right (by norm_num) (by decide))
    exact ⟨hidx, hx, validateBasic_proofsFromByteSlices hlen hsize _ hmem⟩

/-- With parts of `BlockPartSizeBytes`, every part `NewPartSetFromData` makes passes `Part.ValidateBasic`: the
    parts before the last are full chunks, and the proofs are those of `ProofsFromByteSlices`. -/
theorem validateBasic_newPartSetFromData {data : List UInt8} (hfit : data.length + blockPartSizeBytes.toNat ≤ 2 ^ 32)
    {ps : PartSet} (hps : newPartSetFromData sha data blockPartSizeBytes = some ps) {t : ℕ} {p : Part}
    (hp : ps.partAt t = some p) : p.validateBasic = .ok () := by
  have hP : blockPartSizeBytes.toNat = 65536 := rfl
  obtain ⟨ps', hps', hi, -, htotal, -, hslots⟩ := newPartSetFromData_spec hlen (by rw [hP]; omega) hfit
  obtain rfl : ps' = ps := Option.some.inj (hps'.symm.trans hps)
  obtain ⟨-, hbytes, hproof⟩ := (hslots t).1 p hp
  obtain ⟨hidx, hptotal, -⟩ := hi.stored t p hp
  have ht := (List.getElem?_eq_some_iff.mp hbytes).1
  rw [partsBytesOf, List.length_map, List.length_range] at ht
  rw [partsBytesOf, List.getElem?_map, List.getElem?_range ht, Option.map_some, Option.some_inj] at hbytes
  rw [partsBytesOf, List.length_map, List.length_range] at htotal
  refine Part.validateBasic_eq_ok.mpr ⟨?_, fun hlt => ?_, hproof⟩
  · rw [← hbytes]
    exact Chunks.length_chunk_le _ _ _
  · -- a part before the last slot is a chunk before the last, which is full
    have hwrap : wrapInt64 (p.proof.total - 1) = p.proof.total - 1 :=
      wrapInt64_of_mem (by rw [hptotal]; unfold minInt64; omega)
        (by rw [hptotal]; have := ps'.total.toNat_lt; unfold maxInt64; omega)
    have hnext : t + 2 ≤ Chunks.count blockPartSizeBytes.toNat data.length := by
      rw [hwrap, hptotal, hidx, htotal] at hlt
      omega
    have hmul := Chunks.count_mul_lt (p := blockPartSizeBytes.toNat) (by rw [hP]; omega) data.length
    have hle := Nat.mul_le_mul_right blockPartSizeBytes.toNat hnext
    rw [← hbytes, Chunks.length_chunk_eq_iff (by rw [hP]; omega)]
    generalize Chunks.count blockPartSizeBytes.toNat data.length = c at hmul hle
    simp only [hP] at hmul hle ⊢
    linarith

end

end

/-! ### Reading the parts -/

/-- What a reader has still to hand out: the rest of its part, and the parts after it. -/
def PartSetReader.rest (psr : PartSetReader) : List UInt8 :=
  psr.reader ++ ((psr.parts.drop (psr.i + 1)).map fun p => p.getD []).flatten

/-- The parts after the one a reader reads are all there. -/
def PartSetReader.Whole (psr : PartSetReader) : Prop := ∀ p ∈ psr.parts.drop (psr.i + 1), p.isSome

/-- A `Read` into a buffer of at least one byte hands out a part of what is left, and some of it unless it
    returns `io.EOF`, which it does only with the last of it. -/
theorem PartSetReader.read_spec {psr : PartSetReader} {len : ℕ} (hlen : 0 < len) (hw : psr.Whole) :
    ∃ out psr' eof, psr.read len = some (out, psr', eof) ∧ psr'.Whole ∧ out ++ psr'.rest = psr.rest ∧
      (eof = true → psr'.rest = []) ∧ (eof = false → out ≠ []) := by
  induction psr, len using PartSetReader.read.induct with
  | case1 psr len hle hnil =>
    rw [hnil, List.length_nil] at hle
    omega
  | case2 psr len hle hne =>
    -- the buffer fills from the part
    refine ⟨psr.reader.take len, { psr with reader := psr.reader.drop len }, false,
      by rw [PartSetReader.read, if_pos hle, if_neg hne], hw, ?_, by simp, fun _ => ?_⟩
    · simp only [PartSetReader.rest]
      rw [← List.append_assoc, List.take_append_drop]
    · rw [ne_eq, List.take_eq_nil_iff, not_or]
      exact ⟨by omega, hne⟩
  | case3 psr len hle hpos ih =>
    -- the rest of the part, then the read goes on from its end
    obtain ⟨out, psr', eof, hread, hw', hrest, heof, -⟩ := ih (by omega) hw
    refine ⟨psr.reader ++ out, psr', eof, ?_, hw', ?_, heof, fun _ => by simp [List.length_pos_iff.mp hpos]⟩
    · rw [PartSetReader.read, if_neg hle, if_pos hpos, hread]
      rfl
    · rw [List.append_assoc, hrest]
      rfl
  | case4 psr len hle hpos hend =>
    -- no part is left: `io.EOF`
    have hr : psr.reader = [] := List.eq_nil_of_length_eq_zero (by omega)
    have hrest : psr.rest = [] := by
      rw [PartSetReader.rest, hr, List.drop_eq_nil_of_le hend]
      rfl
    refine ⟨[], { psr with i := psr.i + 1 }, true, by rw [PartSetReader.read, if_neg hle, if_neg hpos,
      if_pos hend], fun p hp => ?_, ?_, fun _ => ?_, by simp⟩
    · change p ∈ psr.parts.drop (psr.i + 1 + 1) at hp
      rw [List.drop_eq_nil_of_le (by omega)] at hp
      cases hp
    · rw [hrest]
      simp only [PartSetReader.rest, hr, List.drop_eq_nil_of_le (by omega : psr.parts.length ≤ psr.i + 1 + 1)]
      rfl
    · simp only [PartSetReader.rest, hr, List.drop_eq_nil_of_le (by omega : psr.parts.length ≤ psr.i + 1 + 1)]
      rfl
  | case5 psr len hle hpos hend bytes hbytes ih =>
    -- the next part
    have hr : psr.reader = [] := List.eq_nil_of_length_eq_zero (by omega)
    have hlt : psr.i + 1 < psr.parts.length := by omega
    have hdrop : psr.parts.drop (psr.i + 1) = some bytes :: psr.parts.drop (psr.i + 1 + 1) := by
      rw [List.drop_eq_getElem_cons hlt, ← Option.some.inj ((List.getElem?_eq_getElem hlt).symm.trans hbytes)]
    have hw' : PartSetReader.Whole { psr with i := psr.i + 1, reader := bytes } :=
      fun p hp => hw p (by rw [hdrop]; exact List.mem_cons_of_mem _ hp)
    obtain ⟨out, psr', eof, hread, hw'', hrest, heof, hne⟩ := ih hlen hw'
    refine ⟨out, psr', eof, ?_, hw'', ?_, heof, hne⟩
    · rw [PartSetReader.read, if_neg hle, if_neg hpos, if_neg hend, hbytes]
      exact hread
    · rw [hrest, PartSetReader.rest, PartSetReader.rest, hr, hdrop]
      rfl
  | case6 psr len hle hpos hend hnone =>
    -- a nil part after the one read is excluded
    have hlt : psr.i + 1 < psr.parts.length := by omega
    have hmem : psr.parts[psr.i + 1] ∈ psr.parts.drop (psr.i + 1) := by
      rw [List.drop_eq_getElem_cons hlt]
      exact List.mem_cons_self
    obtain ⟨b, hb⟩ := Option.isSome_iff_exists.mp (hw _ hmem)
    exact absurd (by rw [List.getElem?_eq_getElem hlt, hb]) (hnone b)

/-- Reads with buffers of at least one byte, one more than the bytes left, hand out all of them and end at
    `io.EOF`. -/
theorem PartSetReader.readLoop_rest (lens : List ℕ) (hlens : ∀ l ∈ lens, 0 < l) :
    ∀ {psr : PartSetReader}, psr.Whole → psr.rest.length < lens.length → psr.readLoop lens = some (psr.rest, true) := by
  induction lens with
  | nil =>
    intro psr _ h
    simp at h
  | cons len lens ih =>
    intro psr hw h
    obtain ⟨out, psr', eof, hread, hw', hrest, heof, hne⟩ :=
      PartSetReader.read_spec (hlens len List.mem_cons_self) hw
    rw [PartSetReader.readLoop, hread, Option.bind_some]
    dsimp only
    cases eof with
    | true =>
      rw [if_pos rfl, ← hrest, heof rfl, List.append_nil]
    | false =>
      -- the read handed out at least one byte
      have hlen' : psr'.rest.length < lens.length := by
        have := congrArg List.length hrest
        rw [List.length_append, List.length_cons] at *
        have := List.length_pos_iff.mpr (hne rfl)
        omega
      rw [if_neg Bool.false_ne_true, ih (fun l hl => hlens l (List.mem_cons_of_mem _ hl)) hw' hlen', ← hrest]
      rfl

/-- The reader of a complete set of parts hands out the parts' bytes, in order. -/
theorem PartSet.getReader_spec {ps : PartSet} (hc : ps.isComplete) (hall : ∀ p ∈ ps.parts, p.isSome)
    (hne : ps.parts ≠ []) :
    ∃ psr, ps.getReader = some psr ∧ psr.Whole ∧ psr.rest = (ps.parts.map fun p => (p.map Part.bytes).getD []).flatten := by
  obtain ⟨p, parts, hparts⟩ := List.exists_cons_of_ne_nil hne
  obtain ⟨q, hq⟩ := Option.isSome_iff_exists.mp (hall p (hparts ▸ List.mem_cons_self))
  subst hq
  refine ⟨⟨0, ps.parts.map (·.map Part.bytes), q.bytes⟩, ?_, fun r hr => ?_, ?_⟩
  · rw [PartSet.getReader, if_pos hc, hparts]
    rfl
  · obtain ⟨r', hr', rfl⟩ := List.mem_map.mp (List.mem_of_mem_drop hr)
    simpa using hall r' hr'
  · rw [PartSetReader.rest, hparts]
    simp [Function.comp_def]

/-! ### Complete sets -/

section
variable {sha}

/-- A set is complete when every slot below the total holds a part. -/
theorem PartSet.Inv.isComplete_iff {ps : PartSet} (hi : ps.Inv sha) :
    ps.isComplete ↔ ∀ t < ps.total.toNat, (ps.partAt t).isSome := by
  rw [PartSet.isComplete, beq_iff_eq, ← UInt32.toNat_inj, hi.count_eq, ← hi.length_parts, List.countP_eq_length]
  constructor
  · intro hall t ht
    have := hall _ (List.getElem_mem ht)
    simpa [PartSet.partAt, List.getElem?_eq_getElem ht] using this
  · intro hall a ha
    obtain ⟨t, ht, rfl⟩ := List.getElem_of_mem ha
    have := hall t ht
    simpa [PartSet.partAt, List.getElem?_eq_getElem ht] using this

/-- The reader of a complete set whose slots hold the items at their indices hands out the items, one
    after the other, and ends at `io.EOF`, for buffers of at least one byte, one more than the bytes. -/
theorem PartSet.Inv.readLoop_eq {ps : PartSet} (hi : ps.Inv sha) (hc : ps.isComplete) {items : List (List UInt8)}
    (hlen : ps.total.toNat = items.length) (hne : items ≠ [])
    (hslot : ∀ t p, ps.partAt t = some p → items[t]? = some p.bytes) (lens : List ℕ)
    (hlens : ∀ l ∈ lens, 0 < l) (henough : items.flatten.length < lens.length) :
    (ps.getReader.bind fun psr => psr.readLoop lens) = some (items.flatten, true) := by
  have hfull := hi.isComplete_iff.mp hc
  have hall : ∀ p ∈ ps.parts, p.isSome := by
    intro a ha
    obtain ⟨t, ht, rfl⟩ := List.getElem_of_mem ha
    have := hfull t (hi.length_parts ▸ ht)
    simpa [PartSet.partAt, List.getElem?_eq_getElem ht] using this
  have hpne : ps.parts ≠ [] := by
    rw [← List.length_pos_iff, hi.length_parts, hlen, List.length_pos_iff]
    exact hne
  obtain ⟨psr, hpsr, hw, hrest⟩ := PartSet.getReader_spec hc hall hpne
  -- the parts' bytes are the items
  have hbytes : (ps.parts.map fun p => (p.map Part.bytes).getD []) = items := by
    apply List.ext_getElem?
    intro t
    rw [List.getElem?_map]
    by_cases ht : t < ps.parts.length
    · obtain ⟨p, hp⟩ := Option.isSome_iff_exists.mp (hall _ (List.getElem_mem ht))
      have hat : ps.partAt t = some p := by simp [PartSet.partAt, List.getElem?_eq_getElem ht, hp]
      rw [List.getElem?_eq_getElem ht, hp, hslot t p hat]
      rfl
    · rw [List.getElem?_eq_none_iff.mpr (not_lt.mp ht), List.getElem?_eq_none_iff.mpr]
      · rfl
      · rw [← hlen, ← hi.length_parts]
        exact not_lt.mp ht
  rw [hpsr, Option.bind_some, ← hbytes, ← hrest]
  exact PartSetReader.readLoop_rest lens hlens hw (by rw [hrest, hbytes]; exact henough)

/-- `AddPart` of a part whose slot is taken is refused as a duplicate, without an error. -/
theorem PartSet.addPart_of_taken {ps : PartSet} {part : Part} (hidx : part.index < ps.total)
    (h : (ps.partAt part.index.toNat).isSome) : ps.addPart sha part = .ok (false, ps) := by
  obtain ⟨p, hp⟩ := Option.isSome_iff_exists.mp h
  have hslot : ps.parts[part.index.toNat]? = some (some p) := by
    simp only [PartSet.partAt] at hp
    cases hq : ps.parts[part.index.toNat]? with
    | none => rw [hq] at hp; cases hp
    | some q => rw [hq] at hp; rw [show q = some p from hp]
  unfold PartSet.addPart
  rw [if_neg (UInt32.not_le.mpr hidx), hslot]

end

section
variable (sha : List UInt8 → List UInt8)

/-! ### Block parts from peers -/

@[simp] theorem partAt_newPartSetFromHeader (header : PartSetHeader) (t : ℕ) :
    (newPartSetFromHeader header).partAt t = none := by
  simp only [newPartSetFromHeader, PartSet.partAt, List.getElem?_replicate]
  split_ifs <;> rfl

theorem two_le_count {p n : ℕ} (hp : 0 < p) (h : p < n) : 2 ≤ Chunks.count p n := by
  have hle := Chunks.le_count_mul hp n
  by_contra hlt
  have : Chunks.count p n * p ≤ 1 * p := Nat.mul_le_mul_right p (by omega)
  omega

/-- Every run of `AddPart` on the set of a header, with any parts at all, returns without a panic. The set
    keeps the header; its count is the number of parts it holds, its bit array marks exactly their slots,
    and its byte size is the sum of their lengths; it is complete exactly when every slot below the total
    holds a part; and each part it holds is one it was given, at the part's own index, with a proof of the
    total that verifies it against the header's hash. -/
theorem partSet_addParts_consistent (header : PartSetHeader) (parts : List Part) :
    ∃ ps, (newPartSetFromHeader header).addParts sha parts = some ps ∧ ps.header = header ∧
      ps.parts.length = header.total.toNat ∧ (∀ t, bit ps.partsBitArray t = (ps.partAt t).isSome) ∧
      ps.count.toNat = ps.parts.countP Option.isSome ∧
      ps.byteSize = (ps.parts.map fun p => (p.map fun p => p.bytes.length).getD 0).sum ∧
      (ps.isComplete ↔ ∀ t < header.total.toNat, (ps.partAt t).isSome) ∧
      ∀ t p, ps.partAt t = some p → p ∈ parts ∧ p.index.toNat = t ∧ p.proof.total = header.total.toNat ∧
        p.proof.verify sha header.hash p.bytes = .ok () := by
  have hi₀ := inv_newPartSetFromHeader sha header
  obtain ⟨ps, hrun, hi⟩ := hi₀.addParts sha parts
  obtain ⟨htotal, hhash, -, hfrom⟩ := PartSet.addParts_keeps sha hi₀ hrun
  have hheader : ps.header = header := by
    rw [PartSet.header, htotal, hhash]
    rfl
  have htotal' : ps.total = header.total := htotal
  refine ⟨ps, hrun, hheader, htotal' ▸ hi.length_parts, hi.bit_eq, hi.count_eq, hi.byteSize_eq,
    htotal' ▸ hi.isComplete_iff, fun t p hp => ?_⟩
  obtain ⟨hidx, hptotal, hver⟩ := hi.stored t p hp
  have hmem : p ∈ parts := by
    rcases hfrom t p hp with h | h
    · simp at h
    · exact h
  rw [htotal'] at hptotal
  rw [show ps.hash = header.hash from hhash] at hver
  exact ⟨hmem, hidx, hptotal, hver⟩

/-- Block parts round trip. For data of one byte or more and a part size that fit in `uint32`, the set
    `NewPartSetFromData` makes is complete, and its reader, read into buffers of one byte or more, one more
    than the data's bytes, hands out the data and ends at `io.EOF`. A set started from its header and given
    every one of its parts, in any order and among any other parts whose proof is of their own index,
    becomes complete and reads back the data the same way, when the hash gives no message of the data's
    tree a second preimage. -/
theorem partSet_round_trip (hlen : ∀ m, (sha m).length = tmhashSize) {data : List UInt8} {partSize : UInt32}
    (hne : data ≠ []) (hpos : 0 < partSize.toNat) (hfit : data.length + partSize.toNat ≤ 2 ^ 32) :
    ∃ ps, newPartSetFromData sha data partSize = some ps ∧ ps.isComplete ∧
      (∀ lens : List ℕ, (∀ l ∈ lens, 0 < l) → data.length < lens.length →
        (ps.getReader.bind fun psr => psr.readLoop lens) = some (data, true)) ∧
      ((∀ m ∈ treeMessages sha (partsBytesOf data partSize.toNat), ∀ m', sha m' = sha m → m' = m) →
        ∀ parts : List Part, (∀ t p, ps.partAt t = some p → p ∈ parts) →
          (∀ part ∈ parts, part.proof.index = part.index.toNat) →
          ∃ ps', (newPartSetFromHeader ps.header).addParts sha parts = some ps' ∧ ps'.isComplete ∧
            ∀ lens : List ℕ, (∀ l ∈ lens, 0 < l) → data.length < lens.length →
              (ps'.getReader.bind fun psr => psr.readLoop lens) = some (data, true)) := by
  obtain ⟨ps, hps, hi, hc, htotal, hhash, hslots⟩ := newPartSetFromData_spec hlen hpos hfit
  have hitems : (partsBytesOf data partSize.toNat).flatten = data := Chunks.flatten_chunks hpos data
  have hine : partsBytesOf data partSize.toNat ≠ [] := by
    intro h
    rw [h] at hitems
    exact hne hitems.symm
  refine ⟨ps, hps, hc, fun lens hlens henough => ?_, fun hspr parts hgenuine hhonest => ?_⟩
  · rw [← hitems]
    exact hi.readLoop_eq hc htotal hine (fun t p hp => ((hslots t).1 p hp).2.1) lens hlens (by rwa [hitems])
  -- the receiver's run fills every slot with the part of the data at its index
  have hi₀ := inv_newPartSetFromHeader sha ps.header
  obtain ⟨ps', hrun, hi'⟩ := hi₀.addParts sha parts
  obtain ⟨htotal', hhash', -, hfrom⟩ := PartSet.addParts_keeps sha hi₀ hrun
  have hfill := PartSet.addParts_fills sha hi₀ hrun
  have hT : ps'.total = ps.total := htotal'
  have hc' : ps'.isComplete := by
    rw [hi'.isComplete_iff, hT]
    intro t ht
    obtain ⟨p, hp⟩ := Option.isSome_iff_exists.mp ((hslots t).2 ht)
    obtain ⟨hidx, hptotal, hver⟩ := hi.stored t p hp
    have hlt : p.index < ps.total := UInt32.lt_iff_toNat_lt.mpr (hidx ▸ ht)
    have := hfill p (hgenuine t p hp) hlt hptotal hver
    rwa [hidx] at this
  refine ⟨ps', hrun, hc', fun lens hlens henough => ?_⟩
  rw [← hitems]
  refine hi'.readLoop_eq hc' (hT ▸ htotal) hine (fun t p hp => ?_) lens hlens (by rwa [hitems])
  obtain ⟨hidx, hptotal, hver⟩ := hi'.stored t p hp
  have hmem : p ∈ parts := by
    rcases hfrom t p hp with h | h
    · simp at h
    · exact h
  -- a part that verifies against the root is the item at its proof's index, which is its own
  rw [show ps'.hash = ps.hash from hhash', hhash] at hver
  obtain ⟨-, hat⟩ := eq_of_verify hlen hspr (by rw [hptotal, hT, htotal]) hver
  rwa [hhonest p hmem, Int.toNat_natCast, hidx] at hat

theorem partSet_round_trip_threeBytes :
    let tree : List (List UInt8) := [[0, 1, 2], [0, 3], 1 :: (0 :: List.replicate 31 0 ++ 1 :: List.replicate 31 0)]
    let sha : List UInt8 → List UInt8 := fun m => (tree.idxOf m).toUInt8 :: List.replicate 31 0
    ∃ ps, newPartSetFromData sha [1, 2, 3] 2 = some ps ∧ ps.isComplete ∧
      (ps.getReader.bind fun psr => psr.readLoop [1, 1, 1, 1]) = some ([1, 2, 3], true) ∧
      ∀ parts : List Part, (∀ t p, ps.partAt t = some p → p ∈ parts) →
        (∀ part ∈ parts, part.proof.index = part.index.toNat) →
        ∃ ps', (newPartSetFromHeader ps.header).addParts sha parts = some ps' ∧ ps'.isComplete ∧
          (ps'.getReader.bind fun psr => psr.readLoop [1, 1, 1, 1]) = some ([1, 2, 3], true) := by
  intro tree sha
  have hlen : ∀ m, (sha m).length = tmhashSize := fun m => by simp [sha, tmhashSize]
  -- the hash numbers the messages of the tree, and gives every other message the number 3
  have hmsgs : treeMessages sha (partsBytesOf [1, 2, 3] 2) = tree := by
    have h1 : Nat.log2 1 = 0 := by decide
    have hshape : treeMessages sha [[1, 2], [3]] = [[0, 1, 2], [0, 3], 1 :: (sha [0, 1, 2] ++ sha [0, 3])] := by
      simp [treeMessages, MerkleTree.nodes, MerkleTree.root, MerkleTree.splitPoint, leafHash, h1, List.take_one]
    rw [show partsBytesOf [1, 2, 3] 2 = [[1, 2], [3]] by decide, hshape]
    decide
  have hspr : ∀ m ∈ treeMessages sha (partsBytesOf [1, 2, 3] 2), ∀ m', sha m' = sha m → m' = m := by
    rw [hmsgs]
    intro m hm m' h
    have hnum := congrArg (fun l => (l.headD 0).toNat) h
    have hm' : tree.idxOf m' ≤ 3 := List.idxOf_le_length
    have hm₀ : tree.idxOf m ≤ 3 := List.idxOf_le_length
    simp only [sha, List.headD_cons, Nat.toUInt8_eq, UInt8.toNat_ofNat'] at hnum
    rw [Nat.mod_eq_of_lt (by omega), Nat.mod_eq_of_lt (by omega)] at hnum
    exact ((List.idxOf_inj hm).mp hnum.symm).symm
  obtain ⟨ps, hps, hc, hread, hrecv⟩ :=
    @partSet_round_trip sha hlen [1, 2, 3] 2 (by decide) (by decide) (by decide)
  refine ⟨ps, hps, hc, hread _ (by decide) (by decide), fun parts hgenuine hhonest => ?_⟩
  obtain ⟨ps', hrun, hc', hread'⟩ := hrecv hspr parts hgenuine hhonest
  exact ⟨ps', hrun, hc', hread' _ (by decide) (by decide)⟩

/-- `AddPart` does not compare a part's index with the index of its proof. For data of more than one part,
    the second part of the data relabelled as the first is accepted into the first slot of a set started
    from the header, and the first part of the data is then refused as a duplicate. With parts of
    `BlockPartSizeBytes`, `Part.ValidateBasic` passes both parts, and the copy too as soon as it is full. -/
theorem addPart_stores_misplaced_part (hlen : ∀ m, (sha m).length = tmhashSize) {data : List UInt8}
    {partSize : UInt32} (hpos : 0 < partSize.toNat) (hfit : data.length + partSize.toNat ≤ 2 ^ 32)
    (htwo : partSize.toNat < data.length) :
    ∃ ps p₀ p₁, newPartSetFromData sha data partSize = some ps ∧ ps.partAt 0 = some p₀ ∧ ps.partAt 1 = some p₁ ∧
      p₀.bytes = Chunks.chunk partSize.toNat data 0 ∧ p₁.bytes = Chunks.chunk partSize.toNat data 1 ∧
      (partSize = blockPartSizeBytes → p₀.validateBasic = .ok () ∧ p₁.validateBasic = .ok () ∧
        ({ p₁ with index := 0 }.validateBasic = .ok () ↔ 2 * partSize.toNat ≤ data.length)) ∧
      ∃ ps', (newPartSetFromHeader ps.header).addPart sha { p₁ with index := 0 } = .ok (true, ps') ∧
        ps'.partAt 0 = some { p₁ with index := 0 } ∧ ps'.addPart sha p₀ = .ok (false, ps') := by
  obtain ⟨ps, hps, hi, -, htotal, -, hslots⟩ := newPartSetFromData_spec hlen hpos hfit
  have hcount : 2 ≤ ps.total.toNat := by
    rw [htotal, partsBytesOf, List.length_map, List.length_range]
    exact two_le_count hpos htwo
  obtain ⟨p₀, hp₀⟩ := Option.isSome_iff_exists.mp ((hslots 0).2 (by omega))
  obtain ⟨p₁, hp₁⟩ := Option.isSome_iff_exists.mp ((hslots 1).2 (by omega))
  have hchunk : ∀ t p, ps.partAt t = some p → t < ps.total.toNat → p.bytes = Chunks.chunk partSize.toNat data t := by
    intro t p hp ht
    have hat := ((hslots t).1 p hp).2.1
    rw [partsBytesOf, List.getElem?_map, List.getElem?_range (by rwa [htotal, partsBytesOf, List.length_map,
      List.length_range] at ht)] at hat
    exact (Option.some.inj hat).symm
  -- the relabelled part passes every check of `AddPart` on the empty set
  have hi₀ := inv_newPartSetFromHeader sha ps.header
  obtain ⟨hidx₁, htotal₁, hver₁⟩ := hi.stored 1 p₁ hp₁
  have hvalid : partSize = blockPartSizeBytes → p₀.validateBasic = .ok () ∧ p₁.validateBasic = .ok () ∧
      ({ p₁ with index := 0 }.validateBasic = .ok () ↔ 2 * partSize.toNat ≤ data.length) := by
    rintro rfl
    have hv₁ := validateBasic_newPartSetFromData hlen hfit hps hp₁
    refine ⟨validateBasic_newPartSetFromData hlen hfit hps hp₀, hv₁, ?_⟩
    -- the copy keeps the proof of part 1, whose total is that of the set, at least two
    have hmax : p₁.proof.total ≤ maxInt64 := by
      rw [htotal₁]
      have := ps.total.toNat_lt
      unfold maxInt64
      omega
    rw [Part.validateBasic_zero_iff hv₁ (by rw [htotal₁]; omega) hmax, hchunk 1 p₁ hp₁ (by omega),
      Chunks.length_chunk_eq_iff hpos]
  have hzero : (0 : UInt32) < ps.total := UInt32.lt_iff_toNat_lt.mpr (by simp; omega)
  obtain ⟨added, ps', hadd, hfill⟩ := @PartSet.Inv.addPart_fills sha _ hi₀ { p₁ with index := 0 } hzero htotal₁ hver₁
  obtain ⟨-, -, -, hfrom⟩ := PartSet.addPart_keeps sha hadd
  have hat : ps'.partAt 0 = some { p₁ with index := 0 } := by
    obtain ⟨q, hq⟩ := Option.isSome_iff_exists.mp hfill
    rcases hfrom 0 q hq with h | rfl
    · simp at h
    · exact hq
  have hadded : added = true := by
    rcases PartSet.addPart_eq_ok sha hadd with ⟨-, rfl⟩ | ⟨h, -⟩
    · simp at hat
    · exact h
  subst hadded
  -- the first part of the data finds its slot taken
  obtain ⟨hidx₀, -, -⟩ := hi.stored 0 p₀ hp₀
  have hp₀idx : p₀.index = 0 := UInt32.toNat_inj.mp hidx₀
  obtain ⟨htotal', -, -, -⟩ := PartSet.addPart_keeps sha hadd
  refine ⟨ps, p₀, p₁, hps, hp₀, hp₁, hchunk 0 p₀ hp₀ (by omega), hchunk 1 p₁ hp₁ (by omega), hvalid, ps', hadd, hat, ?_⟩
  apply PartSet.addPart_of_taken
  · rw [hp₀idx, htotal']
    exact hzero
  · rw [hidx₀, hat]
    rfl

theorem addPart_stores_misplaced_part_fiveBytes :
    ∃ ps p₀ p₁, newPartSetFromData (fun _ => List.replicate 32 0) [1, 2, 3, 4, 5] 2 = some ps ∧ ps.partAt 0 = some p₀ ∧
      ps.partAt 1 = some p₁ ∧ p₀.bytes = [1, 2] ∧ p₁.bytes = [3, 4] ∧
      ∃ ps', (newPartSetFromHeader ps.header).addPart (fun _ => List.replicate 32 0) { p₁ with index := 0 } =
          .ok (true, ps') ∧ ps'.addPart (fun _ => List.replicate 32 0) p₀ = .ok (false, ps') := by
  obtain ⟨ps, p₀, p₁, hps, hp₀, hp₁, hb₀, hb₁, -, ps', hadd, -, hdup⟩ := @addPart_stores_misplaced_part
    (fun _ => List.replicate 32 0) (fun _ => by simp [tmhashSize]) [1, 2, 3, 4, 5] 2 (by decide) (by decide) (by decide)
  exact ⟨ps, p₀, p₁, hps, hp₀, hp₁, hb₀, hb₁, ps', hadd, hdup⟩

end

end CometBFT
