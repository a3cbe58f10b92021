import CometBFT.Lib.Word

/-! The bit arrays of `internal/bits/bit_array.go`.

    A `BitArray` is its size `Bits` and its 64-bit words `Elems`; a nil `*BitArray` is `none`. Go's `int`
    is `Int` here, its `/` and `%` truncate (`Int.tdiv`, `Int.tmod`), and an index outside `Elems` is a
    panic, `none`. The code keeps `Elems` at `ceil(Bits / 64)` words (`WellFormed`) only for the arrays it
    builds itself: `FromProto` copies both fields from the wire. -/

namespace CometBFT

/-- `s[i]` of a Go slice with an `int` index: `none` is the index panic on a negative or too large index. -/
def sliceAt {α : Type} (l : List α) (i : Int) : Option α :=
  if i < 0 then none else l[i.toNat]?

theorem sliceAt_natCast {α : Type} (l : List α) (i : Nat) : sliceAt l i = l[i]? := by
  simp [sliceAt]

/-- An index that does not panic is a natural number below the length. -/
theorem sliceAt_eq_some {α : Type} {l : List α} {i : Int} {a : α} (h : sliceAt l i = some a) :
    ∃ n : Nat, i = n ∧ n < l.length ∧ l[n]? = some a := by
  unfold sliceAt at h
  split_ifs at h with hi
  exact ⟨i.toNat, by omega, (List.getElem?_eq_some_iff.mp h).1, h⟩

/-- `BitArray`. -/
structure BitArray where
  bits : Int
  elems : List UInt64
  deriving Repr, DecidableEq

/-- `NewBitArray`: nil for a size that is not positive. -/
def newBitArray (bits : Int) : Option BitArray :=
  if bits ≤ 0 then none else some ⟨bits, List.replicate ((bits + 63) / 64).toNat 0⟩

namespace BitArray

/-- `uint64(1) << uint(r)`: Go shifts a word past its width to zero, and a negative `r` is a shift by more
    than 63. -/
def mask (r : Int) : UInt64 := if r < 0 ∨ 64 ≤ r then 0 else 1 <<< r.toNat.toUInt64

/-- `Size`. -/
def size : Option BitArray → Int
  | none => 0
  | some bA => bA.bits

/-- `SetIndex`: the array with bit `i` set to `v`, and whether `i` is below the size. -/
def setIndex : Option BitArray → Int → Bool → Option (Option BitArray × Bool)
  | none, _, _ => some (none, false)
  | some bA, i, v =>
    if i ≥ bA.bits then some (some bA, false)
    else (sliceAt bA.elems (i.tdiv 64)).map fun e =>
      let e := if v then e ||| mask (i.tmod 64) else e &&& ~~~(mask (i.tmod 64))
      (some { bA with elems := bA.elems.set (i.tdiv 64).toNat e }, true)

/-- `Not`: every word complemented, the size kept. -/
def not : Option BitArray → Option BitArray
  | none => none
  | some bA => some { bA with elems := bA.elems.map (~~~·) }

/-- The set bits of a word below `width`, offset by `base`. -/
def setBits (elem : UInt64) (base : Int) (width : Nat) : List Int :=
  ((List.range width).filter fun j => elem &&& mask j > 0).map fun j => base + j

/-- `getTrueIndices`: the words but the last, 64 bits each, then the last word up to the size. The capacity
    `Bits` of its slice panics when negative, and the last word is `Elems[len(Elems)-1]`. -/
def getTrueIndices (bA : BitArray) : Option (List Int) :=
  if bA.bits < 0 then none
  else
    let numElems : Int := bA.elems.length
    let scan := (bA.elems.take (numElems - 1).toNat).foldl
      (fun (acc : Int × List Int) elem =>
        if elem = 0 then (acc.1 + 64, acc.2) else (acc.1 + 64, acc.2 ++ setBits elem acc.1 64)) (0, [])
    (sliceAt bA.elems (numElems - 1)).map fun lastElem =>
      scan.2 ++ setBits lastElem scan.1 (bA.bits - scan.1).toNat

/-- `PickRandom`, with `rand` the draw of `cmtrand.Intn`: a set bit and `true`, or `(0, false)`. -/
def pickRandom (bA : Option BitArray) (rand : Nat) : Option (Int × Bool) :=
  match bA with
  | none => some (0, false)
  | some bA => (getTrueIndices bA).map fun trueIndices =>
    if trueIndices = [] then (0, false) else (trueIndices.getD (rand % trueIndices.length) 0, true)

/-- `cmtprotobits.BitArray`, the wire form. -/
structure Proto where
  bits : Int
  elems : List UInt64
  deriving Repr, DecidableEq

/-- `FromProto` on the receiver `bA`: a nil message leaves the receiver as it is (the code assigns nil to its
    local copy of the pointer), and an empty `Elems` is not copied. -/
def fromProto (bA : BitArray) : Option Proto → BitArray
  | none => bA
  | some p => { bits := p.bits, elems := if p.elems.length > 0 then p.elems else bA.elems }

/-! ### Well-formed arrays -/

/-- `Elems` holds `ceil(Bits / 64)` words, as `NewBitArray` makes it. -/
def WellFormed (bA : BitArray) : Prop := 0 < bA.bits ∧ bA.elems.length = ((bA.bits + 63) / 64).toNat

/-- Bit `j`, read off the words. -/
def bit : Option BitArray → Nat → Bool
  | none, _ => false
  | some bA, j => decide ((j : Int) < bA.bits) && (bA.elems.getD (j / 64) 0).toNat.testBit (j % 64)

theorem mask_of_lt {r : Nat} (h : r < 64) : mask r = 1 <<< r.toUInt64 := by
  simp only [mask, Int.toNat_natCast]
  rw [if_neg (by omega)]

theorem toNat_toUInt64_of_lt {r : Nat} (h : r < 64) : r.toUInt64.toNat = r := by
  rw [Nat.toUInt64_eq, UInt64.toNat_ofNat']
  exact Nat.mod_eq_of_lt (h.trans (by norm_num))

/-- Go's `/` and `%` on a natural index. -/
theorem tdiv_natCast (j : Nat) : (j : Int).tdiv 64 = ((j / 64 : Nat) : Int) := rfl

theorem tmod_natCast (j : Nat) : (j : Int).tmod 64 = ((j % 64 : Nat) : Int) := rfl

theorem WellFormed.div_lt {bA : BitArray} (hw : bA.WellFormed) {j : Nat} (hj : (j : Int) < bA.bits) :
    j / 64 < bA.elems.length := by
  rw [hw.2]
  omega

/-- Setting bit `j` below the size of a well-formed array keeps it well formed, sets that bit and no other. -/
theorem setIndex_true {bA : BitArray} (hw : bA.WellFormed) {j : Nat} (hj : (j : Int) < bA.bits) :
    ∃ bA', setIndex (some bA) j true = some (some bA', true) ∧ bA'.WellFormed ∧ bA'.bits = bA.bits ∧
      ∀ t, bit (some bA') t = (bit (some bA) t || decide (t = j)) := by
  have hlt := hw.div_lt hj
  have hj64 : j % 64 < 64 := Nat.mod_lt _ (by norm_num)
  refine ⟨{ bA with elems := bA.elems.set (j / 64) (bA.elems[j / 64] ||| mask (j % 64 : Nat)) }, ?_,
    ⟨hw.1, by simp [hw.2]⟩, rfl, fun t => ?_⟩
  · simp only [setIndex, if_neg (not_le.mpr hj), tdiv_natCast, tmod_natCast, sliceAt_natCast,
      List.getElem?_eq_getElem hlt, Option.map_some, if_true, Int.toNat_natCast]
  simp only [bit]
  by_cases ht : (t : Int) < bA.bits
  · simp only [decide_eq_true ht, Bool.true_and, List.getD_eq_getElem?_getD, List.getElem?_set]
    by_cases hq : j / 64 = t / 64
    · -- the word of bit `j`: its bit `t % 64` is set when it is `j % 64`
      have hs : (j % 64).toUInt64.toNat < 64 := by rwa [toNat_toUInt64_of_lt hj64]
      rw [if_pos hq, if_pos (hq ▸ hlt), Option.getD_some, mask_of_lt hj64, Word.testBit_or_one_shiftLeft hs,
        toNat_toUInt64_of_lt hj64, ← hq, List.getElem?_eq_getElem hlt, Option.getD_some]
      congr 1
      simp only [decide_eq_decide]
      omega
    · rw [if_neg hq, decide_eq_false (by omega), Bool.or_false]
  · simp only [decide_eq_false ht, Bool.false_and, Bool.false_or]
    exact (decide_eq_false (by omega)).symm

/-- `NewBitArray` of a positive size is well formed with no bit set. -/
theorem newBitArray_spec {bits : Int} (h : 0 < bits) :
    ∃ bA, newBitArray bits = some bA ∧ bA.WellFormed ∧ bA.bits = bits ∧ ∀ t, bit (some bA) t = false := by
  refine ⟨⟨bits, List.replicate ((bits + 63) / 64).toNat 0⟩, by simp [newBitArray, not_le.mpr h],
    ⟨h, by simp⟩, rfl, fun t => ?_⟩
  simp only [bit, List.getD_eq_getElem?_getD, List.getElem?_replicate, Bool.and_eq_false_imp, decide_eq_true_eq]
  intro
  split_ifs <;> simp

/-- An array of `n` bits as `NewBitArray n` makes it: nil for no bits, else well formed. -/
def Sized (n : Nat) : Option BitArray → Prop
  | none => n = 0
  | some bA => bA.WellFormed ∧ bA.bits = n

theorem newBitArray_sized (n : Nat) : Sized n (newBitArray n) ∧ ∀ t, bit (newBitArray n) t = false := by
  rcases Nat.eq_zero_or_pos n with rfl | hn
  · exact ⟨rfl, fun _ => rfl⟩
  · obtain ⟨bA, h, hw, hbits, hbit⟩ := newBitArray_spec (show (0 : Int) < n by exact_mod_cast hn)
    rw [h]
    exact ⟨⟨hw, hbits⟩, hbit⟩

/-- Setting a bit below the size of a sized array. -/
theorem Sized.setIndex_true {n : Nat} {bA : Option BitArray} (hs : Sized n bA) {j : Nat} (hj : j < n) :
    ∃ bA', setIndex bA j true = some (bA', true) ∧ Sized n bA' ∧ ∀ t, bit bA' t = (bit bA t || decide (t = j)) := by
  cases bA with
  | none => exact absurd hs (by simp only [Sized]; omega)
  | some b =>
    obtain ⟨b', h, hw, hbits, hbit⟩ := BitArray.setIndex_true hs.1 (show (j : Int) < b.bits by rw [hs.2]; exact_mod_cast hj)
    exact ⟨some b', h, ⟨hw, hbits.trans hs.2⟩, hbit⟩

end BitArray

end CometBFT
