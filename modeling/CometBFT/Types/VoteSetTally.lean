import CometBFT.Types.VoteSet
import CometBFT.Lib.Tally

/-! The tallies of a vote set stay sound under any calls `AddVote` and `SetPeerMaj23`.

    `Inv` says what a vote set keeps: `sum` is the power of the validators with a vote in `votes` and the bit
    array marks them; each block's votes carry its key, are tallied the same way and are counted in `votes`;
    and `maj23` names a block whose tally reached the quorum and whose votes `votes` holds. Each elementary
    update keeps it (`putVote`, the two halves of `addVerifiedVote`, `SetPeerMaj23`), so every reachable set
    has it (`reachable_inv`). -/

namespace CometBFT

namespace VoteSet

open Tally

/-- The number of validators, `Size()`. -/
def size (vs : VoteSet) : Nat := vs.valSet.validators.length

/-- The power of validator `i`. -/
def power (valSet : ValidatorSet) (i : Nat) : Int := (valSet.validators[i]?.map (·.votingPower)).getD 0

/-- The power of the validators with a vote in `votes`. -/
def tallyOf (valSet : ValidatorSet) (votes : List (Option Vote)) : Int :=
  tally valSet.validators.length (power valSet) fun i => ((votes[i]?).join).isSome

/-- `TotalVotingPower() * 2 / 3 + 1`. -/
def quorum (valSet : ValidatorSet) : Int := (valSet.totalVotingPower * 2).tdiv 3 + 1

/-- What a block's votes keep. -/
structure BlockInv (vs : VoteSet) (k : List UInt8) (bv : BlockVotes) : Prop where
  length : bv.votes.length = vs.size
  sized : BitArray.Sized vs.size bv.bitArray
  bits : ∀ i < vs.size, BitArray.bit bv.bitArray i = (bv.voteAt i).isSome
  sum : bv.sum = tallyOf vs.valSet bv.votes
  key : ∀ i v, bv.voteAt i = some v → v.blockID.key = k
  counted : ∀ i, (bv.voteAt i).isSome → (vs.voteAt i).isSome

/-- What a vote set keeps. -/
structure Inv (vs : VoteSet) : Prop where
  length : vs.votes.length = vs.size
  sized : BitArray.Sized vs.size vs.votesBitArray
  bits : ∀ i < vs.size, BitArray.bit vs.votesBitArray i = (vs.voteAt i).isSome
  sum : vs.sum = tallyOf vs.valSet vs.votes
  blocks : ∀ k bv, vs.votesByBlock k = some bv → BlockInv vs k bv
  maj23 : ∀ m, vs.maj23 = some m → ∃ bv, vs.votesByBlock m.key = some bv ∧ quorum vs.valSet ≤ bv.sum ∧
    ∀ i, (bv.voteAt i).isSome → ∃ v, vs.voteAt i = some v ∧ v.blockID.key = m.key

/-! ### Votes by index -/

theorem getElem?_join_set {votes : List (Option Vote)} {i : Nat} (hi : i < votes.length) (v : Vote) (j : Nat) :
    ((votes.set i (some v))[j]?).join = if j = i then some v else (votes[j]?).join := by
  by_cases hj : j = i
  · subst hj
    simp [List.getElem?_set_self hi]
  · rw [List.getElem?_set_ne (Ne.symm hj), if_neg hj]

/-- Filling the empty index `i` adds its power to the tally. -/
theorem tallyOf_fill {valSet : ValidatorSet} {votes : List (Option Vote)} {i : Nat} (hi : i < votes.length)
    (hlen : votes.length = valSet.validators.length) (hnone : (votes[i]?).join = none) (v : Vote) :
    tallyOf valSet (votes.set i (some v)) = tallyOf valSet votes + power valSet i :=
  tally_fill (hlen ▸ hi) (by simp [hnone]) fun j _ => by
    rw [getElem?_join_set hi]
    split_ifs with hj <;> simp [hj]

/-- Replacing the vote at a filled index keeps the tally. -/
theorem tallyOf_replace {valSet : ValidatorSet} {votes : List (Option Vote)} {i : Nat} (hi : i < votes.length)
    (hsome : ((votes[i]?).join).isSome) (v : Vote) : tallyOf valSet (votes.set i (some v)) = tallyOf valSet votes :=
  tally_congr fun j _ => by
    rw [getElem?_join_set hi]
    split_ifs with hj
    · subst hj
      simp [hsome]
    · rfl

/-- Setting bit `i` along with filling index `i` keeps the bits marking the filled indices. -/
theorem bits_set {ba ba' : Option BitArray} {votes : List (Option Vote)} {n i : Nat} (hi : i < votes.length)
    (hbits : ∀ t < n, BitArray.bit ba t = ((votes[t]?).join).isSome)
    (hbit : ∀ t, BitArray.bit ba' t = (BitArray.bit ba t || decide (t = i))) (v : Vote) :
    ∀ t < n, BitArray.bit ba' t = (((votes.set i (some v))[t]?).join).isSome := fun t ht => by
  rw [hbit, hbits t ht, getElem?_join_set hi]
  by_cases hti : t = i <;> simp [hti]

/-! ### Placing a vote in `votes` -/

/-- `vs` with `vote` at index `i` of `votes`, the bit array `ba` and the sum `sum`. -/
def place (vs : VoteSet) (i : Nat) (vote : Vote) (ba : Option BitArray) (sum : Int) : VoteSet :=
  { vs with votes := vs.votes.set i (some vote), votesBitArray := ba, sum := sum }

theorem voteAt_place {vs : VoteSet} (hlen : vs.votes.length = vs.size) {i : Nat} (hi : i < vs.size) (vote : Vote)
    (ba : Option BitArray) (sum : Int) (j : Nat) :
    (vs.place i vote ba sum).voteAt j = if j = i then some vote else vs.voteAt j :=
  getElem?_join_set (hlen ▸ hi) vote j

theorem place_grow {vs : VoteSet} (hlen : vs.votes.length = vs.size) {i : Nat} (hi : i < vs.size) (vote : Vote)
    (ba : Option BitArray) (sum : Int) {j : Nat} (hj : (vs.voteAt j).isSome) :
    ((vs.place i vote ba sum).voteAt j).isSome := by
  rw [voteAt_place hlen hi]
  split_ifs <;> simp [hj]

/-- `putVote` places the vote at its index and sets its bit. -/
theorem putVote_eq {vs : VoteSet} (hI : Inv vs) {vote : Vote} {i : Nat} (hidx : vote.validatorIndex = i)
    (hi : i < vs.size) :
    ∃ ba, vs.putVote vote = some (vs.place i vote ba vs.sum) ∧ BitArray.Sized vs.size ba ∧
      ∀ t, BitArray.bit ba t = (BitArray.bit vs.votesBitArray t || decide (t = i)) := by
  obtain ⟨ba, hset, hsized, hbit⟩ := hI.sized.setIndex_true hi
  refine ⟨ba, ?_, hsized, hbit⟩
  simp only [putVote, hidx, hset, Option.map_some, place, Int.toNat_natCast]

/-- A block's votes stay sound when `votes` only gains votes. -/
theorem BlockInv.mono {vs vs' : VoteSet} {k : List UInt8} {bv : BlockVotes} (h : BlockInv vs k bv)
    (hval : vs'.valSet = vs.valSet) (hgrow : ∀ j, (vs.voteAt j).isSome → (vs'.voteAt j).isSome) : BlockInv vs' k bv where
  length := by rw [h.length]; simp [size, hval]
  sized := by simpa [size, hval] using h.sized
  bits := by simpa [size, hval] using h.bits
  sum := by rw [h.sum, hval]
  key := h.key
  counted j hj := hgrow j (h.counted j hj)

/-- Placing a vote keeps the invariant, when the sum is the new tally and the vote at `i` stays a vote for
    `maj23` wherever `maj23`'s block has one. -/
theorem Inv.place {vs : VoteSet} (hI : Inv vs) {vote : Vote} {i : Nat} (hi : i < vs.size) {ba : Option BitArray}
    (hsized : BitArray.Sized vs.size ba) (hbit : ∀ t, BitArray.bit ba t = (BitArray.bit vs.votesBitArray t || decide (t = i)))
    {sum : Int} (hsum : sum = tallyOf vs.valSet (vs.votes.set i (some vote)))
    (hmaj : ∀ m bv, vs.maj23 = some m → vs.votesByBlock m.key = some bv → (bv.voteAt i).isSome →
      vote.blockID.key = m.key) :
    Inv (vs.place i vote ba sum) := by
  refine ⟨?_, hsized, bits_set (hI.length ▸ hi) hI.bits hbit vote, hsum,
    fun k bv hk => (hI.blocks k bv hk).mono rfl fun j => place_grow hI.length hi vote ba sum, fun m hm => ?_⟩
  · show (vs.votes.set i _).length = vs.size
    simp [hI.length]
  · obtain ⟨bv, hbv, hq, hvotes⟩ := hI.maj23 m hm
    refine ⟨bv, hbv, hq, fun j hj => ?_⟩
    rw [voteAt_place hI.length hi]
    split_ifs with hji
    · exact ⟨vote, rfl, hmaj m bv hm hbv (hji ▸ hj)⟩
    · exact hvotes j hj

/-! ### The first half of `addVerifiedVote` -/

/-- What `recordVote` leaves: the invariant, the same validators, blocks and `maj23`, the votes there were,
    and at index `i` a vote, one for `blockKey` when that is `maj23`'s key. -/
structure Recorded (vs vs' : VoteSet) (i : Nat) (blockKey : List UInt8) : Prop where
  inv : Inv vs'
  valSet : vs'.valSet = vs.valSet
  votesByBlock : vs'.votesByBlock = vs.votesByBlock
  maj23 : vs'.maj23 = vs.maj23
  grow : ∀ j, (vs.voteAt j).isSome → (vs'.voteAt j).isSome
  filled : (vs'.voteAt i).isSome
  forMaj23 : ∀ m, vs.maj23 = some m → m.key = blockKey → ∃ v, vs'.voteAt i = some v ∧ v.blockID.key = blockKey

theorem Recorded.refl {vs : VoteSet} (hI : Inv vs) {i : Nat} {blockKey : List UInt8} (hfill : (vs.voteAt i).isSome)
    (hmaj : ∀ m, vs.maj23 = some m → m.key ≠ blockKey) : Recorded vs vs i blockKey where
  inv := hI
  valSet := rfl
  votesByBlock := rfl
  maj23 := rfl
  grow _ h := h
  filled := hfill
  forMaj23 m hm hk := absurd hk (hmaj m hm)

/-- `recordVote` of a vote at a valid index, with its validator's power, returns what was at the index. -/
theorem recordVote_spec {vs vs' : VoteSet} (hI : Inv vs) {vote : Vote} {i : Nat} (hidx : vote.validatorIndex = i)
    (hi : i < vs.size) {blockKey : List UInt8} (hkey : vote.blockID.key = blockKey) {votingPower : Int}
    (hpow : votingPower = power vs.valSet i) {c : Option Vote}
    (h : vs.recordVote vote blockKey votingPower (vs.voteAt i) = some (vs', c)) :
    Recorded vs vs' i blockKey ∧ c = vs.voteAt i := by
  obtain ⟨ba, hput, hsized, hbit⟩ := putVote_eq hI hidx hi
  have hvp := voteAt_place hI.length hi vote ba
  cases hex : vs.voteAt i with
  | none =>
    -- a first vote: placed and counted
    rw [hex] at h
    simp only [recordVote, hput, Option.map_some, Option.some.injEq, Prod.mk.injEq] at h
    obtain ⟨h₁, rfl⟩ := h
    obtain rfl : vs' = vs.place i vote ba (vs.sum + votingPower) := h₁.symm
    have hsum : vs.sum + votingPower = tallyOf vs.valSet (vs.votes.set i (some vote)) := by
      rw [tallyOf_fill (hI.length ▸ hi) hI.length hex, hI.sum, hpow]
    have hmaj : ∀ m bv, vs.maj23 = some m → vs.votesByBlock m.key = some bv → (bv.voteAt i).isSome →
        vote.blockID.key = m.key := fun m bv _ hbv hb => by
      simpa [hex] using (hI.blocks _ bv hbv).counted i hb
    refine ⟨⟨hI.place hi hsized hbit hsum hmaj, rfl, rfl, rfl, fun j => place_grow hI.length hi vote ba _, ?_,
      fun _ _ _ => ⟨vote, ?_, hkey⟩⟩, rfl⟩
    · simp [hvp]
    · simp [hvp]
  | some e =>
    rw [hex] at h
    by_cases hdup : e.blockID = vote.blockID
    · -- the same block again: a panic
      simp [recordVote, hdup] at h
    by_cases hmaj : vs.maj23.map BlockID.key = some blockKey
    · -- a conflicting vote for `maj23` replaces the one there
      simp only [recordVote, if_neg hdup, if_pos hmaj, hput, Option.map_some, Option.some.injEq,
        Prod.mk.injEq] at h
      obtain ⟨rfl, rfl⟩ := h
      have hsum : vs.sum = tallyOf vs.valSet (vs.votes.set i (some vote)) := by
        rw [tallyOf_replace (hI.length ▸ hi) (by simp [VoteSet.voteAt] at hex; simp [hex]), hI.sum]
      have hm : ∀ m bv, vs.maj23 = some m → vs.votesByBlock m.key = some bv → (bv.voteAt i).isSome →
          vote.blockID.key = m.key := fun m _ hm _ _ => by
        simpa [hm, hkey] using hmaj.symm
      refine ⟨⟨hI.place hi hsized hbit hsum hm, rfl, rfl, rfl, fun j => place_grow hI.length hi vote ba _, ?_,
        fun _ _ _ => ⟨vote, ?_, hkey⟩⟩, rfl⟩
      · simp [hvp]
      · simp [hvp]
    · -- any other conflicting vote leaves the set
      simp only [recordVote, if_neg hdup, if_neg hmaj, Option.some.injEq, Prod.mk.injEq] at h
      obtain ⟨rfl, rfl⟩ := h
      exact ⟨Recorded.refl hI (by simp [hex]) fun m hm hk => hmaj (by simp [hm, hk]), rfl⟩

/-! ### The second half of `addVerifiedVote` -/

@[simp] theorem join_replicate_none (n i : Nat) : ((List.replicate n (none : Option Vote))[i]?).join = none := by
  rw [List.getElem?_replicate]
  split_ifs <;> rfl

@[simp] theorem voteAt_newBlockVotes (peerMaj23 : Bool) (n i : Nat) : (newBlockVotes peerMaj23 n).voteAt i = none :=
  join_replicate_none n i

theorem blockInv_newBlockVotes (vs : VoteSet) (k : List UInt8) (peerMaj23 : Bool) :
    BlockInv vs k (newBlockVotes peerMaj23 vs.size) where
  length := List.length_replicate
  sized := (BitArray.newBitArray_sized _).1
  bits i _ := by
    simp only [voteAt_newBlockVotes, Option.isSome_none]
    exact (BitArray.newBitArray_sized _).2 i
  sum := by
    show (0 : Int) = tally _ _ fun i => ((newBlockVotes peerMaj23 vs.size).voteAt i).isSome
    simp
  key i v h := by simp at h
  counted i h := by simp at h

/-- A block's `addVerifiedVote` of a vote for it at a filled index: the block's votes stay sound and gain at
    most that vote, and its tally does not drop. -/
theorem BlockInv.addVerifiedVote {vs : VoteSet} {k : List UInt8} {bv bv' : BlockVotes} (h : BlockInv vs k bv)
    {vote : Vote} {i : Nat} (hidx : vote.validatorIndex = i) (hi : i < vs.size) (hkey : vote.blockID.key = k)
    (hfill : (vs.voteAt i).isSome) {votingPower : Int} (hpow : votingPower = power vs.valSet i)
    (hnn : 0 ≤ votingPower) (hadd : bv.addVerifiedVote vote votingPower = some bv') :
    BlockInv vs k bv' ∧ bv.sum ≤ bv'.sum ∧ ∀ j ≠ i, bv'.voteAt j = bv.voteAt j := by
  have hlen : i < bv.votes.length := h.length ▸ hi
  obtain ⟨o, ho⟩ : ∃ o, bv.votes[i]? = some o := ⟨_, List.getElem?_eq_getElem hlen⟩
  cases o with
  | some e =>
    -- a vote at `i` already: the block is unchanged
    simp only [BlockVotes.addVerifiedVote, hidx, sliceAt_natCast, ho, Option.bind_eq_bind, Option.bind_some,
      Option.some.injEq] at hadd
    subst hadd
    exact ⟨h, le_rfl, fun _ _ => rfl⟩
  | none =>
    obtain ⟨ba, hset, hsized, hbit⟩ := h.sized.setIndex_true hi
    simp only [BlockVotes.addVerifiedVote, hidx, sliceAt_natCast, ho, hset, Option.bind_eq_bind, Option.bind_some,
      Option.some.injEq, Int.toNat_natCast] at hadd
    subst hadd
    have hva := getElem?_join_set hlen vote
    have hnone : (bv.votes[i]?).join = none := by simp [ho]
    refine ⟨⟨by simp [h.length], hsized, bits_set hlen h.bits hbit vote, ?_, fun j v hj => ?_, fun j hj => ?_⟩,
      by simpa using hnn, fun j hj => by simp only [BlockVotes.voteAt, hva, if_neg hj]⟩
    · show bv.sum + votingPower = _
      rw [tallyOf_fill hlen (h.length.trans rfl) hnone, h.sum, hpow]
    · simp only [BlockVotes.voteAt, hva] at hj
      split_ifs at hj
      · exact (Option.some.inj hj) ▸ hkey
      · exact h.key j v hj
    · simp only [BlockVotes.voteAt, hva] at hj
      split_ifs at hj with hji
      · exact hji ▸ hfill
      · exact h.counted j hj

theorem getElem?_copyVotes (votes blockVotes : List (Option Vote)) (j : Nat) :
    (copyVotes votes blockVotes)[j]? = votes[j]?.map fun (v : Option Vote) => ((blockVotes[j]?).join).or v := by
  induction votes, blockVotes using copyVotes.induct generalizing j with
  | case1 v votes b blockVotes ih => cases j <;> simp [copyVotes, ih]
  | case2 votes => simp [copyVotes]
  | case3 b blockVotes => simp [copyVotes]

theorem length_copyVotes (votes blockVotes : List (Option Vote)) :
    (copyVotes votes blockVotes).length = votes.length := by
  induction votes, blockVotes using copyVotes.induct with
  | case1 v votes b blockVotes ih => simp [copyVotes, ih]
  | case2 votes => simp [copyVotes]
  | case3 b blockVotes => simp [copyVotes]

/-- Copying a block's votes, each at an index with a vote already, takes them over and keeps the rest. -/
theorem join_copyVotes {votes blockVotes : List (Option Vote)}
    (hc : ∀ j : Nat, ((blockVotes[j]?).join).isSome → ((votes[j]?).join).isSome) (j : Nat) :
    ((copyVotes votes blockVotes)[j]?).join = ((blockVotes[j]?).join).or ((votes[j]?).join) := by
  rw [getElem?_copyVotes]
  cases hv : votes[j]? with
  | some v => simp
  | none =>
    have := hc j
    simp only [hv, Option.join_none, Option.isSome_none, Bool.false_eq_true, imp_false,
      Bool.not_eq_true, Option.isSome_eq_false_iff, Option.isNone_iff_eq_none] at this
    simp [this]

/-- Filing a block's votes, sound and, when the block is `maj23`'s, over the quorum with its votes in `votes`,
    keeps the invariant. -/
theorem Inv.setBlock {vs : VoteSet} (hI : Inv vs) {k : List UInt8} {bv' : BlockVotes} (hbv' : BlockInv vs k bv')
    (hmaj : ∀ m, vs.maj23 = some m → m.key = k → quorum vs.valSet ≤ bv'.sum ∧
      ∀ j, (bv'.voteAt j).isSome → ∃ v, vs.voteAt j = some v ∧ v.blockID.key = m.key) :
    Inv { vs with votesByBlock := Function.update vs.votesByBlock k (some bv') } := by
  refine ⟨hI.length, hI.sized, hI.bits, hI.sum, fun k' bv₁ hk' => ?_, fun m hm => ?_⟩
  · by_cases hkk : k' = k
    · subst hkk
      obtain rfl : bv' = bv₁ := by simpa using hk'
      exact hbv'.mono rfl fun _ h => h
    · exact (hI.blocks k' bv₁ (by simpa [Function.update_of_ne hkk] using hk')).mono rfl fun _ h => h
  · by_cases hmk : m.key = k
    · obtain ⟨hq, hv⟩ := hmaj m hm hmk
      exact ⟨bv', by simp [hmk], hq, hv⟩
    · obtain ⟨bv₁, h₁, hq, hv⟩ := hI.maj23 m hm
      exact ⟨bv₁, by simpa [Function.update_of_ne hmk] using h₁, hq, hv⟩

/-- Making a block over the quorum `maj23` and copying its votes into `votes` keeps the invariant: they
    stand at indices with a vote already, so the tally and the bits stay. -/
theorem Inv.copy {vs : VoteSet} (hI : Inv vs) {m : BlockID} {bv : BlockVotes} (hbv : vs.votesByBlock m.key = some bv)
    (hq : quorum vs.valSet ≤ bv.sum) : Inv { vs with maj23 := some m, votes := copyVotes vs.votes bv.votes } := by
  have hb := hI.blocks _ bv hbv
  have hv : ∀ j, ((copyVotes vs.votes bv.votes)[j]?).join = (bv.voteAt j).or (vs.voteAt j) :=
    join_copyVotes hb.counted
  have hsome : ∀ j, (((copyVotes vs.votes bv.votes)[j]?).join).isSome = (vs.voteAt j).isSome := fun j => by
    rw [hv]
    cases hj : bv.voteAt j with
    | none => simp
    | some v => simpa [hj] using (hb.counted j (by simp [hj])).symm
  refine ⟨(length_copyVotes _ _).trans hI.length, hI.sized, fun t ht => (hI.bits t ht).trans (hsome t).symm,
    hI.sum.trans (tally_congr fun j _ => (hsome j).symm), fun k bv₁ hk => ?_, fun m' hm' => ?_⟩
  · exact (hI.blocks k bv₁ hk).mono rfl fun j h => (hsome j).symm ▸ h
  · obtain rfl : m = m' := Option.some.inj hm'
    refine ⟨bv, hbv, hq, fun j hj => ?_⟩
    obtain ⟨v, hjv⟩ := Option.isSome_iff_exists.mp hj
    exact ⟨v, by simp [VoteSet.voteAt, hv, hjv], hb.key j v hjv⟩

/-- `addToBlock` of a vote at a filled index keeps the invariant and the validators, and never changes a
    `maj23` there was. -/
theorem Inv.addToBlock {vs vs' : VoteSet} (hI : Inv vs) {vote : Vote} {i : Nat} (hidx : vote.validatorIndex = i)
    (hi : i < vs.size) {blockKey : List UInt8} (hkey : vote.blockID.key = blockKey) (hfill : (vs.voteAt i).isSome)
    (hforMaj23 : ∀ m, vs.maj23 = some m → m.key = blockKey → ∃ v, vs.voteAt i = some v ∧ v.blockID.key = blockKey)
    {votingPower : Int} (hpow : votingPower = power vs.valSet i) (hnn : 0 ≤ votingPower) {bv : BlockVotes}
    (hbv : BlockInv vs blockKey bv) (hcur : ∀ bv₀, vs.votesByBlock blockKey = some bv₀ → bv₀ = bv)
    (h : vs.addToBlock vote blockKey votingPower bv = some vs') :
    Inv vs' ∧ vs'.valSet = vs.valSet ∧ ∀ m, vs.maj23 = some m → vs'.maj23 = some m := by
  cases hadd : bv.addVerifiedVote vote votingPower with
  | none => simp [VoteSet.addToBlock, hadd] at h
  | some bv' =>
    obtain ⟨hbv', hle, hsame⟩ := hbv.addVerifiedVote hidx hi hkey hfill hpow hnn hadd
    -- the block's new votes, filed under its key
    have hI₁ : Inv { vs with votesByBlock := Function.update vs.votesByBlock blockKey (some bv') } :=
      hI.setBlock hbv' fun m hm hmk => by
        obtain ⟨bv₀, h₀, hq, hv⟩ := hI.maj23 m hm
        obtain rfl := hcur bv₀ (hmk ▸ h₀)
        refine ⟨hq.trans hle, fun j hj => ?_⟩
        by_cases hji : j = i
        · subst hji
          obtain ⟨v, hv', hk⟩ := hforMaj23 m hm hmk
          exact ⟨v, hv', hk.trans hmk.symm⟩
        · exact hv j (hsame j hji ▸ hj)
    simp only [VoteSet.addToBlock, hadd, Option.bind_eq_bind, Option.bind_some] at h
    split_ifs at h with hcross
    · -- the block crosses the quorum with no `maj23` yet
      obtain rfl := Option.some.inj h
      refine ⟨hI₁.copy (show _ = some bv' by simp [hkey]) hcross.2.1, rfl, fun m hm => ?_⟩
      exact absurd hcross.2.2 (by simp [hm])
    · obtain rfl := Option.some.inj h
      exact ⟨hI₁, rfl, fun m hm => hm⟩

/-! ### `addVerifiedVote` -/

/-- `addVerifiedVote` of a vote with its validator's power keeps the invariant and the validators, and never
    changes a `maj23` there was. -/
theorem Inv.addVerifiedVote {vs vs' : VoteSet} (hI : Inv vs) (hnn : ∀ i, 0 ≤ power vs.valSet i) {vote : Vote}
    {blockKey : List UInt8} (hkey : vote.blockID.key = blockKey) {votingPower : Int}
    (hpow : ∀ i : Nat, vote.validatorIndex = i → votingPower = power vs.valSet i) {added : Bool}
    {c : Option Vote} (h : vs.addVerifiedVote vote blockKey votingPower = some (vs', added, c)) :
    Inv vs' ∧ vs'.valSet = vs.valSet ∧ ∀ m, vs.maj23 = some m → vs'.maj23 = some m := by
  simp only [VoteSet.addVerifiedVote, Option.bind_eq_bind] at h
  cases hex : sliceAt vs.votes vote.validatorIndex with
  | none => simp [hex] at h
  | some existing =>
    obtain ⟨i, hidx, hi, hget⟩ := sliceAt_eq_some hex
    have hexist : existing = vs.voteAt i := by simp [VoteSet.voteAt, hget]
    cases hrec : vs.recordVote vote blockKey votingPower existing with
    | none => simp [hex, hrec] at h
    | some r =>
      obtain ⟨vs₁, c₁⟩ := r
      have hi₀ : i < vs.size := hI.length ▸ hi
      obtain ⟨hr, -⟩ := recordVote_spec hI hidx hi₀ hkey (hpow i hidx) (hexist ▸ hrec)
      have hi₁ : i < vs₁.size := by
        unfold size
        rw [hr.valSet]
        exact hi₀
      have hpow₁ : votingPower = power vs₁.valSet i := by rw [hr.valSet]; exact hpow i hidx
      have hnn₁ : 0 ≤ votingPower := hpow₁ ▸ hr.valSet ▸ hnn i
      have hforMaj23 : ∀ m, vs₁.maj23 = some m → m.key = blockKey →
          ∃ v, vs₁.voteAt i = some v ∧ v.blockID.key = blockKey := fun m hm =>
        hr.forMaj23 m (hr.maj23.symm.trans hm)
      simp only [hex, hrec, Option.bind_some] at h
      -- the vote goes into its block's votes unless it conflicts and nobody claimed the block
      split at h
      · rename_i bv hbv
        split_ifs at h
        · obtain ⟨rfl, -, -⟩ := Prod.mk.inj (Option.some.inj h)
          exact ⟨hr.inv, hr.valSet, fun m hm => hr.maj23.trans hm⟩
        · obtain ⟨vs₂, h₂, hv₂⟩ := Option.map_eq_some_iff.mp h
          obtain rfl := (Prod.mk.inj hv₂).1
          obtain ⟨hI₂, hval₂, hmaj₂⟩ := hr.inv.addToBlock hidx hi₁ hkey hr.filled hforMaj23 hpow₁ hnn₁
            (hr.inv.blocks _ _ hbv) (fun bv₀ h₀ => Option.some.inj (h₀.symm.trans hbv)) h₂
          exact ⟨hI₂, hval₂.trans hr.valSet, fun m hm => hmaj₂ m (hr.maj23.trans hm)⟩
      · rename_i hbv
        split_ifs at h
        · obtain ⟨rfl, -, -⟩ := Prod.mk.inj (Option.some.inj h)
          exact ⟨hr.inv, hr.valSet, fun m hm => hr.maj23.trans hm⟩
        · obtain ⟨vs₂, h₂, hv₂⟩ := Option.map_eq_some_iff.mp h
          obtain rfl := (Prod.mk.inj hv₂).1
          obtain ⟨hI₂, hval₂, hmaj₂⟩ := hr.inv.addToBlock hidx hi₁ hkey hr.filled hforMaj23 hpow₁ hnn₁
            (blockInv_newBlockVotes vs₁ blockKey false) (fun bv₀ h₀ => by simp [hbv] at h₀) h₂
          exact ⟨hI₂, hval₂.trans hr.valSet, fun m hm => hmaj₂ m (hr.maj23.trans hm)⟩

/-! ### `AddVote`, `SetPeerMaj23` and runs -/

/-- The invariant reads only the validators, the votes with their bits and sum, `maj23` and the blocks. -/
theorem Inv.of_eq {vs vs' : VoteSet} (hI : Inv vs) (hval : vs'.valSet = vs.valSet) (hvotes : vs'.votes = vs.votes)
    (hbits : vs'.votesBitArray = vs.votesBitArray) (hsum : vs'.sum = vs.sum) (hmaj : vs'.maj23 = vs.maj23)
    (hblocks : vs'.votesByBlock = vs.votesByBlock) : Inv vs' := by
  cases vs
  cases vs'
  simp only at hval hvotes hbits hsum hmaj hblocks
  subst hval hvotes hbits hsum hmaj hblocks
  exact ⟨hI.length, hI.sized, hI.bits, hI.sum, fun k bv h => (hI.blocks k bv h).mono rfl fun _ h => h, hI.maj23⟩

/-- The validator `GetByIndex` finds has the power `power` reads at its index. -/
theorem power_of_getByIndex {valSet : ValidatorSet} {index : Int} {val : Validator}
    (h : valSet.getByIndex index = some val) (i : Nat) (hi : index = i) : val.votingPower = power valSet i := by
  subst hi
  simp only [ValidatorSet.getByIndex, Int.natCast_nonneg, not_lt.mpr, false_or, ge_iff_le, Nat.cast_le,
    Int.toNat_natCast] at h
  split_ifs at h
  simp [power, h]

/-- `addChecked` is `addVerifiedVote` with the error of a conflict. -/
theorem addChecked_spec {vs vs' : VoteSet} {vote : Vote} {votingPower : Int} {added : Bool}
    {err : Option VoteError} (h : vs.addChecked vote votingPower = some (vs', added, err)) :
    ∃ added' c, vs.addVerifiedVote vote vote.blockID.key votingPower = some (vs', added', c) := by
  simp only [VoteSet.addChecked, Option.bind_eq_bind] at h
  obtain ⟨⟨vs₁, a, c⟩, h₁, h⟩ := Option.bind_eq_some_iff.mp h
  cases c with
  | some c =>
    obtain ⟨rfl, -, -⟩ := Prod.mk.inj (Option.some.inj h)
    exact ⟨a, _, h₁⟩
  | none =>
    simp only at h
    split_ifs at h
    obtain ⟨rfl, -, -⟩ := Prod.mk.inj (Option.some.inj h)
    exact ⟨a, _, h₁⟩

/-- `AddVote` either returns the set as it was or is `addChecked` of the vote with the power of the validator at
    its index. -/
theorem addVote_cases {verify : Bool → Vote → Bool} {vs vs' : VoteSet} {vote : Option Vote} {added : Bool}
    {err : Option VoteError} (h : vs.addVote verify vote = some (vs', added, err)) :
    vs' = vs ∨ ∃ v val, vs.valSet.getByIndex v.validatorIndex = some val ∧
      vs.addChecked v val.votingPower = some (vs', added, err) := by
  cases vote with
  | none =>
    simp only [VoteSet.addVote, Option.some.injEq, Prod.mk.injEq] at h
    exact Or.inl h.1.symm
  | some v =>
    simp only [VoteSet.addVote, Option.bind_eq_bind] at h
    -- the checks before the lookup of the vote there is: each failure returns the set
    repeat' split at h
    all_goals try exact Or.inl (Prod.mk.inj (Option.some.inj h)).1.symm
    -- the vote there is, the signature check and the extension check
    all_goals obtain ⟨e, -, h⟩ := Option.bind_eq_some_iff.mp h
    all_goals repeat' split at h
    all_goals first
      | exact Or.inl (Prod.mk.inj (Option.some.inj h)).1.symm
      | exact Or.inr ⟨v, _, ‹_›, h⟩

theorem Inv.addVote {verify : Bool → Vote → Bool} {vs vs' : VoteSet} (hI : Inv vs) (hnn : ∀ i, 0 ≤ power vs.valSet i)
    {vote : Option Vote} {added : Bool} {err : Option VoteError} (h : vs.addVote verify vote = some (vs', added, err)) :
    Inv vs' ∧ vs'.valSet = vs.valSet ∧ ∀ m, vs.maj23 = some m → vs'.maj23 = some m := by
  rcases addVote_cases h with rfl | ⟨v, val, hval, hc⟩
  · exact ⟨hI, rfl, fun _ h => h⟩
  · obtain ⟨_, _, h'⟩ := addChecked_spec hc
    exact hI.addVerifiedVote hnn rfl (power_of_getByIndex hval) h'

theorem Inv.setPeerMaj23 {vs vs' : VoteSet} (hI : Inv vs) {peerID : P2PID} {blockID : BlockID}
    {err : Option PeerMaj23Error} (h : vs.setPeerMaj23 peerID blockID = (vs', err)) :
    Inv vs' ∧ vs'.valSet = vs.valSet ∧ vs'.maj23 = vs.maj23 := by
  have hI₀ : Inv { vs with peerMaj23s := Function.update vs.peerMaj23s peerID (some blockID) } :=
    hI.of_eq rfl rfl rfl rfl rfl rfl
  simp only [VoteSet.setPeerMaj23] at h
  split at h
  · -- the peer claimed a block before: nothing changes
    split_ifs at h <;> obtain ⟨rfl, -⟩ := Prod.mk.inj h <;> exact ⟨hI, rfl, rfl⟩
  split at h
  · rename_i bv hbv
    split_ifs at h
    · obtain ⟨rfl, -⟩ := Prod.mk.inj h
      exact ⟨hI₀, rfl, rfl⟩
    · -- the block's votes are flagged, and stay as they were
      obtain ⟨rfl, -⟩ := Prod.mk.inj h
      have hb := hI₀.blocks _ bv hbv
      refine ⟨hI₀.setBlock ⟨hb.length, hb.sized, hb.bits, hb.sum, hb.key, hb.counted⟩ fun m hm hmk => ?_, rfl, rfl⟩
      obtain ⟨bv₁, h₁, hq, hv⟩ := hI₀.maj23 m hm
      obtain rfl : bv₁ = bv := Option.some.inj (h₁.symm.trans (hmk ▸ hbv))
      exact ⟨hq, hv⟩
  · -- a new block, with no votes yet: it is not `maj23`'s, whose votes are filed
    rename_i hbv
    obtain ⟨rfl, -⟩ := Prod.mk.inj h
    refine ⟨hI₀.setBlock (blockInv_newBlockVotes _ _ true) fun m hm hmk => ?_, rfl, rfl⟩
    obtain ⟨bv₁, h₁, -⟩ := hI₀.maj23 m hm
    exact absurd (h₁.symm.trans (hmk ▸ hbv)) (by simp)

/-- One call keeps the invariant and the validators, and never changes a `maj23` there was. -/
theorem Inv.step {verify : Bool → Vote → Bool} {vs vs' : VoteSet} (hI : Inv vs) (hnn : ∀ i, 0 ≤ power vs.valSet i)
    (hstep : Step verify vs vs') : Inv vs' ∧ vs'.valSet = vs.valSet ∧ ∀ m, vs.maj23 = some m → vs'.maj23 = some m := by
  cases hstep with
  | addVote vote added err h => exact hI.addVote hnn h
  | setPeerMaj23 peerID blockID err h =>
    obtain ⟨hI', hval, hmaj⟩ := hI.setPeerMaj23 h
    exact ⟨hI', hval, fun m hm => hmaj.trans hm⟩

/-- A run of calls keeps the invariant and the validators, and never changes a `maj23` there was. -/
theorem Inv.run {verify : Bool → Vote → Bool} {vs vs' : VoteSet} (hI : Inv vs) (hnn : ∀ i, 0 ≤ power vs.valSet i)
    (hrun : Relation.ReflTransGen (Step verify) vs vs') :
    Inv vs' ∧ vs'.valSet = vs.valSet ∧ ∀ m, vs.maj23 = some m → vs'.maj23 = some m := by
  induction hrun with
  | refl => exact ⟨hI, rfl, fun _ h => h⟩
  | tail _ hstep ih =>
    obtain ⟨hI₁, hval₁, hmaj₁⟩ := ih
    obtain ⟨hI₂, hval₂, hmaj₂⟩ := hI₁.step (hval₁ ▸ hnn) hstep
    exact ⟨hI₂, hval₂.trans hval₁, fun m hm => hmaj₂ m (hmaj₁ m hm)⟩

/-! ### The tallies of a reachable set -/

/-- Two block IDs can share a key, and then a vote in `votes` for the other one stands where `maj23`'s block
    has a vote: validator 0 votes for `y`, validator 1 for `x`, and `x`'s key crosses two thirds with both. -/
theorem maj23_vote_for_other_block :
    ∃ vs₀ vs : VoteSet, newVoteSet "" 1 0 .prevote ⟨[⟨[0], 1, 0⟩, ⟨[1], 1, 0⟩], none⟩ = some vs₀ ∧
      Relation.ReflTransGen (Step fun _ _ => true) vs₀ vs ∧
      ∃ m bv v, vs.maj23 = some m ∧ vs.votesByBlock m.key = some bv ∧ (bv.voteAt 0).isSome ∧
        vs.voteAt 0 = some v ∧ v.blockID ≠ m := by
  -- the hash of `y` ends with the start of the encoded header of `x`
  let x : BlockID := ⟨[], ⟨1, List.replicate 28 0 ++ [8, 128, 128, 1]⟩⟩
  let y : BlockID := ⟨[8, 1, 18, 32] ++ List.replicate 28 0, ⟨16384, []⟩⟩
  have h₀ : (newVoteSet "" 1 0 .prevote ⟨[⟨[0], 1, 0⟩, ⟨[1], 1, 0⟩], none⟩).isSome := by decide
  let vs₀ := (newVoteSet "" 1 0 .prevote ⟨[⟨[0], 1, 0⟩, ⟨[1], 1, 0⟩], none⟩).get h₀
  let v₀ : Vote := ⟨.prevote, 1, 0, y, 0, [0], 0, [], [], []⟩
  let v₁ : Vote := ⟨.prevote, 1, 0, x, 0, [1], 1, [], [], []⟩
  have h₁ : (vs₀.addVote (fun _ _ => true) (some v₀)).isSome := by decide +revert
  let r₁ := (vs₀.addVote (fun _ _ => true) (some v₀)).get h₁
  have h₂ : (r₁.1.addVote (fun _ _ => true) (some v₁)).isSome := by decide +revert
  let r₂ := (r₁.1.addVote (fun _ _ => true) (some v₁)).get h₂
  have hb : (r₂.1.votesByBlock x.key).isSome := by decide +revert
  refine ⟨vs₀, r₂.1, (Option.some_get h₀).symm,
    .tail (.single (.addVote _ r₁.2.1 r₁.2.2 (Option.some_get h₁).symm)) (.addVote _ r₂.2.1 r₂.2.2 (Option.some_get h₂).symm),
    x, _, v₀, by decide +revert, (Option.some_get hb).symm, by decide +revert, by decide +revert, by decide +revert⟩

end VoteSet

end CometBFT
