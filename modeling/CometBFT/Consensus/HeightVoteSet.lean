import CometBFT.Types.VoteSet
import CometBFT.Lib.AList

/-! The vote sets of one height (`internal/consensus/types/height_vote_set.go`): a prevote and a
    precommit set per round, for every round up to `round`, and for the rounds above it that peers sent
    votes for, at most two rounds per peer ("catch-up" rounds).

    The Go maps are association lists. A vote set is held by pointer, so a call on it is written back
    into the map (`setVoteSet`). A panic, and `SetRound(MaxInt32)`, whose loop counter wraps around and
    never ends, are the errors of `HVSPanic`. -/

namespace CometBFT

/-- `math.MaxInt32`. -/
def maxInt32 : Int := 2 ^ 31 - 1

/-- `math.MinInt32`. -/
def minInt32 : Int := -2 ^ 31

/-- `RoundVoteSet`. -/
structure RoundVoteSet where
  prevotes : VoteSet
  precommits : VoteSet

/-- `HeightVoteSet`. -/
structure HeightVoteSet where
  chainID : String
  height : Int
  valSet : ValidatorSet
  extensionsEnabled : Bool
  round : Int
  roundVoteSets : AList fun _ : Int => RoundVoteSet
  peerCatchupRounds : AList fun _ : P2PID => List Int

/-- The panics of `HeightVoteSet`'s methods, and a call that never returns. -/
inductive HVSPanic
  /-- "addRound() for an existing round" -/
  | existingRound (round : Int)
  /-- `NewVoteSet` on height 0 -/
  | newVoteSet
  /-- a panic inside `VoteSet.AddVote` -/
  | voteSet
  /-- a call on a nil vote set -/
  | nilVoteSet
  /-- "extensions enabled general param does not match the one in HeightVoteSet" -/
  | extensionsMismatch (hvsExtensions extensions : Bool)
  /-- `SafeSubInt32` -/
  | overflowInt32
  /-- "SetRound() must increment hvs.round" -/
  | mustIncrement
  /-- `SetRound(MaxInt32)`: the loop counter wraps around and the loop never ends -/
  | loopsForever
  /-- "Unexpected vote type" -/
  | unexpectedVoteType (voteType : SignedMsgType)
  deriving DecidableEq, Repr

/-- The errors `AddVote` returns. -/
inductive AddVoteError
  /-- `ErrGotVoteFromUnwantedRound` -/
  | unwantedRound
  | vote (e : VoteError)
  deriving DecidableEq, Repr

/-- The errors `SetPeerMaj23` returns. -/
inductive SetPeerMaj23Error
  /-- "setPeerMaj23: Invalid vote type" -/
  | invalidVoteType (voteType : SignedMsgType)
  | peerMaj23 (e : PeerMaj23Error)
  deriving DecidableEq, Repr

theorem except_bind_ne_error {ε α β : Type} {x : Except ε α} {f : α → Except ε β} {e : ε}
    (hx : x ≠ .error e) (hf : ∀ a, f a ≠ .error e) : x >>= f ≠ .error e := by
  cases x with
  | error e' => simpa [bind, Except.bind] using hx
  | ok a => exact hf a

namespace HeightVoteSet

/-- `addRound`: fresh prevotes and precommits for a round that has none. -/
def addRound (hvs : HeightVoteSet) (round : Int) : Except HVSPanic HeightVoteSet :=
  if round ∈ hvs.roundVoteSets then .error (.existingRound round)
  else
    let precommits := if hvs.extensionsEnabled then newExtendedVoteSet hvs.chainID hvs.height round .precommit hvs.valSet
      else newVoteSet hvs.chainID hvs.height round .precommit hvs.valSet
    match newVoteSet hvs.chainID hvs.height round .prevote hvs.valSet, precommits with
    | some prevotes, some precommits =>
      .ok { hvs with roundVoteSets := hvs.roundVoteSets.insert round ⟨prevotes, precommits⟩ }
    | _, _ => .error .newVoteSet

/-- `Reset`. -/
def reset (hvs : HeightVoteSet) (height : Int) (valSet : ValidatorSet) : Except HVSPanic HeightVoteSet :=
  let hvs := { hvs with height, valSet, roundVoteSets := ∅, peerCatchupRounds := ∅ }
  (hvs.addRound 0).map fun hvs => { hvs with round := 0 }

/-- `NewHeightVoteSet` and `NewExtendedHeightVoteSet`, which differ in `extensionsEnabled` only. -/
def newWith (extensionsEnabled : Bool) (chainID : String) (height : Int) (valSet : ValidatorSet) :
    Except HVSPanic HeightVoteSet :=
  reset { chainID, height := 0, valSet, extensionsEnabled, round := 0, roundVoteSets := ∅,
          peerCatchupRounds := ∅ } height valSet

/-- `NewHeightVoteSet`. -/
def newHeightVoteSet (chainID : String) (height : Int) (valSet : ValidatorSet) : Except HVSPanic HeightVoteSet :=
  newWith false chainID height valSet

/-- `NewExtendedHeightVoteSet`. -/
def newExtendedHeightVoteSet (chainID : String) (height : Int) (valSet : ValidatorSet) :
    Except HVSPanic HeightVoteSet :=
  newWith true chainID height valSet

/-- The loop of `SetRound` over the rounds `rs`: a round that catch-up votes created is kept, and each
    other one is added. -/
def addMissingRounds (hvs : HeightVoteSet) : List Int → Except HVSPanic HeightVoteSet
  | [] => .ok hvs
  | r :: rs => (if r ∈ hvs.roundVoteSets then .ok hvs else hvs.addRound r) >>= (addMissingRounds · rs)

/-- The rounds `lo, lo + 1, …, hi`. -/
def roundsFrom (lo hi : Int) : List Int := (List.range (hi - lo + 1).toNat).map fun i : ℕ => lo + i

/-- `SetRound`. A round is an `int32`: on `MaxInt32` the loop counter wraps around to `MinInt32`, which
    is again at most `round`, so the loop never ends. -/
def setRound (hvs : HeightVoteSet) (round : Int) : Except HVSPanic HeightVoteSet :=
  if hvs.round < minInt32 + 1 then .error .overflowInt32
  else
    let newRound := hvs.round - 1
    if hvs.round ≠ 0 ∧ round < newRound then .error .mustIncrement
    else if maxInt32 ≤ round then .error .loopsForever
    else (hvs.addMissingRounds (roundsFrom newRound round)).map fun hvs => { hvs with round }

/-- `getVoteSet`: `none` for a round without vote sets. -/
def getVoteSet (hvs : HeightVoteSet) (round : Int) (voteType : SignedMsgType) :
    Except HVSPanic (Option VoteSet) :=
  match hvs.roundVoteSets.lookup round with
  | none => .ok none
  | some rvs =>
    match voteType with
    | .prevote => .ok (some rvs.prevotes)
    | .precommit => .ok (some rvs.precommits)
    | voteType => .error (.unexpectedVoteType voteType)

/-- The vote set of a round and type after a call on it changed it. -/
def setVoteSet (hvs : HeightVoteSet) (round : Int) (voteType : SignedMsgType) (voteSet : VoteSet) :
    HeightVoteSet :=
  match hvs.roundVoteSets.lookup round with
  | none => hvs
  | some rvs =>
    let rvs := if voteType = .prevote then { rvs with prevotes := voteSet } else { rvs with precommits := voteSet }
    { hvs with roundVoteSets := hvs.roundVoteSets.insert round rvs }

/-- `voteSet.AddVote(vote)`, written back. -/
def addToVoteSet (verify : Bool → Vote → Bool) (hvs : HeightVoteSet) (vote : Vote) (voteSet : VoteSet) :
    Except HVSPanic (HeightVoteSet × Bool × Option AddVoteError) :=
  match voteSet.addVote verify (some vote) with
  | none => .error .voteSet
  | some (voteSet, added, err) => .ok (hvs.setVoteSet vote.round vote.type voteSet, added, err.map .vote)

/-- `AddVote`: a vote for a round without vote sets opens it as one of the peer's catch-up rounds, unless
    the peer has two already. -/
def addVote (verify : Bool → Vote → Bool) (hvs : HeightVoteSet) (vote : Vote) (peerID : P2PID)
    (extEnabled : Bool) : Except HVSPanic (HeightVoteSet × Bool × Option AddVoteError) :=
  if hvs.extensionsEnabled ≠ extEnabled then .error (.extensionsMismatch hvs.extensionsEnabled extEnabled)
  else if !isVoteTypeValid vote.type then .ok (hvs, false, none)
  else
    match hvs.getVoteSet vote.round vote.type with
    | .error p => .error p
    | .ok (some voteSet) => hvs.addToVoteSet verify vote voteSet
    | .ok none =>
      let rndz := (hvs.peerCatchupRounds.lookup peerID).getD []
      if 2 ≤ rndz.length then .ok (hvs, false, some .unwantedRound)
      else do
        let hvs ← hvs.addRound vote.round
        match ← hvs.getVoteSet vote.round vote.type with
        | none => .error .nilVoteSet
        | some voteSet =>
          let hvs := { hvs with peerCatchupRounds := hvs.peerCatchupRounds.insert peerID (rndz ++ [vote.round]) }
          hvs.addToVoteSet verify vote voteSet

/-- `SetPeerMaj23`: nothing for a round without vote sets. -/
def setPeerMaj23 (hvs : HeightVoteSet) (round : Int) (voteType : SignedMsgType) (peerID : P2PID)
    (blockID : BlockID) : Except HVSPanic (HeightVoteSet × Option SetPeerMaj23Error) :=
  if !isVoteTypeValid voteType then .ok (hvs, some (.invalidVoteType voteType))
  else
    match hvs.getVoteSet round voteType with
    | .error p => .error p
    | .ok none => .ok (hvs, none)
    | .ok (some voteSet) =>
      let (voteSet, err) := voteSet.setPeerMaj23 peerID blockID
      .ok (hvs.setVoteSet round voteType voteSet, err.map .peerMaj23)

/-! ### What each method does to the rounds -/

variable {hvs hvs' : HeightVoteSet}

theorem addRound_eq_ok {r : Int} (h : hvs.addRound r = .ok hvs') :
    r ∉ hvs.roundVoteSets ∧ ∃ rvs, hvs' = { hvs with roundVoteSets := hvs.roundVoteSets.insert r rvs } := by
  unfold addRound at h
  by_cases hr : r ∈ hvs.roundVoteSets
  · rw [if_pos hr] at h
    cases h
  rw [if_neg hr] at h
  dsimp only at h
  split at h
  · exact ⟨hr, _, (Except.ok.inj h).symm⟩
  · cases h

/-- `addRound` panics on an existing round only. -/
theorem addRound_ne_existingRound {r k : Int} (h : r ∉ hvs.roundVoteSets) :
    hvs.addRound r ≠ .error (.existingRound k) := by
  unfold addRound
  rw [if_neg h]
  dsimp only
  split <;> simp

theorem mem_setVoteSet {r k : Int} {t : SignedMsgType} {voteSet : VoteSet} :
    k ∈ (hvs.setVoteSet r t voteSet).roundVoteSets ↔ k ∈ hvs.roundVoteSets := by
  unfold setVoteSet
  split
  · rfl
  · rename_i rvs hr
    rw [AList.mem_insert]
    have hrm : r ∈ hvs.roundVoteSets := AList.lookup_isSome.mp (by rw [hr]; rfl)
    constructor
    · rintro (rfl | hk)
      · exact hrm
      · exact hk
    · exact .inr

@[simp] theorem setVoteSet_round {r : Int} {t : SignedMsgType} {voteSet : VoteSet} :
    (hvs.setVoteSet r t voteSet).round = hvs.round := by
  unfold setVoteSet
  split <;> rfl

@[simp] theorem setVoteSet_peerCatchupRounds {r : Int} {t : SignedMsgType} {voteSet : VoteSet} :
    (hvs.setVoteSet r t voteSet).peerCatchupRounds = hvs.peerCatchupRounds := by
  unfold setVoteSet
  split <;> rfl

theorem addMissingRounds_eq_ok {rs : List Int} (h : hvs.addMissingRounds rs = .ok hvs') :
    (∀ k, k ∈ hvs'.roundVoteSets ↔ k ∈ hvs.roundVoteSets ∨ k ∈ rs) ∧ hvs'.round = hvs.round ∧
      hvs'.peerCatchupRounds = hvs.peerCatchupRounds := by
  induction rs generalizing hvs with
  | nil =>
    obtain rfl := Except.ok.inj h
    simp
  | cons r rs ih =>
    obtain ⟨hvs₁, h₁, h⟩ := except_bind_eq_ok.mp h
    obtain ⟨hmem, hround, hpeers⟩ := ih h
    -- the loop body adds `r` or finds it there
    have hkeys : ∀ k, k ∈ hvs₁.roundVoteSets ↔ k ∈ hvs.roundVoteSets ∨ k = r := by
      split_ifs at h₁ with hr
      · obtain rfl := Except.ok.inj h₁
        exact fun k => ⟨.inl, fun h => h.elim id (· ▸ hr)⟩
      · obtain ⟨-, rvs, rfl⟩ := addRound_eq_ok h₁
        exact fun k => by rw [AList.mem_insert, or_comm]
    have hsame : hvs₁.round = hvs.round ∧ hvs₁.peerCatchupRounds = hvs.peerCatchupRounds := by
      split_ifs at h₁ with hr
      · obtain rfl := Except.ok.inj h₁
        exact ⟨rfl, rfl⟩
      · obtain ⟨-, rvs, rfl⟩ := addRound_eq_ok h₁
        exact ⟨rfl, rfl⟩
    refine ⟨fun k => ?_, hround.trans hsame.1, hpeers.trans hsame.2⟩
    rw [hmem, hkeys, List.mem_cons]
    tauto

theorem addMissingRounds_ne_existingRound {rs : List Int} {k : Int} :
    hvs.addMissingRounds rs ≠ .error (.existingRound k) := by
  induction rs generalizing hvs with
  | nil => simp [addMissingRounds]
  | cons r rs ih =>
    unfold addMissingRounds
    split_ifs with hr
    · exact ih
    · cases h : hvs.addRound r with
      | error p =>
        have hp : p ≠ .existingRound k := fun hp => addRound_ne_existingRound hr (hp ▸ h)
        simpa [bind, Except.bind] using hp
      | ok hvs₁ => exact ih

theorem mem_roundsFrom {lo hi k : Int} : k ∈ roundsFrom lo hi ↔ lo ≤ k ∧ k ≤ hi := by
  simp only [roundsFrom, List.mem_map, List.mem_range]
  constructor
  · rintro ⟨i, hi, rfl⟩
    omega
  · intro ⟨hlo, hhi⟩
    exact ⟨(k - lo).toNat, by omega, by omega⟩

theorem setRound_eq_ok {r : Int} (h : hvs.setRound r = .ok hvs') :
    hvs'.round = r ∧ (∀ k, k ∈ hvs'.roundVoteSets ↔ k ∈ hvs.roundVoteSets ∨ hvs.round - 1 ≤ k ∧ k ≤ r) ∧
      hvs'.peerCatchupRounds = hvs.peerCatchupRounds := by
  unfold setRound at h
  dsimp only at h
  split_ifs at h
  obtain ⟨hvs₁, h₁, rfl⟩ := except_map_eq_ok.mp h
  obtain ⟨hmem, -, hpeers⟩ := addMissingRounds_eq_ok h₁
  exact ⟨rfl, fun k => by rw [hmem, mem_roundsFrom], hpeers⟩

theorem setRound_ne_existingRound {r k : Int} : hvs.setRound r ≠ .error (.existingRound k) := by
  unfold setRound
  dsimp only
  split_ifs
  · simp
  · simp
  · simp
  · cases h : hvs.addMissingRounds (roundsFrom (hvs.round - 1) r) with
    | error p =>
      have hp : p ≠ .existingRound k := fun hp => addMissingRounds_ne_existingRound (hp ▸ h)
      simpa [Except.map] using hp
    | ok hvs₁ => simp [Except.map]

theorem reset_eq_ok {height : Int} {valSet : ValidatorSet} (h : hvs.reset height valSet = .ok hvs') :
    hvs'.round = 0 ∧ (∀ k, k ∈ hvs'.roundVoteSets ↔ k = 0) ∧ hvs'.peerCatchupRounds = ∅ := by
  obtain ⟨hvs₁, h₁, rfl⟩ := except_map_eq_ok.mp h
  obtain ⟨-, rvs, rfl⟩ := addRound_eq_ok h₁
  exact ⟨rfl, fun k => by rw [AList.mem_insert]; simp [AList.notMem_empty], rfl⟩

theorem reset_ne_existingRound {height : Int} {valSet : ValidatorSet} {k : Int} :
    hvs.reset height valSet ≠ .error (.existingRound k) := by
  unfold reset
  cases h : ({ hvs with height, valSet, roundVoteSets := ∅, peerCatchupRounds := ∅ } : HeightVoteSet).addRound 0 with
  | error p =>
    have hp : p ≠ .existingRound k := fun hp => addRound_ne_existingRound (AList.notMem_empty 0) (hp ▸ h)
    simpa [h, Except.map] using hp
  | ok hvs₁ => simp [h, Except.map]

theorem not_mem_of_getVoteSet_eq_none {r : Int} {t : SignedMsgType} (h : hvs.getVoteSet r t = .ok none) :
    r ∉ hvs.roundVoteSets := by
  unfold getVoteSet at h
  split at h
  · rename_i hr
    exact AList.lookup_eq_none.mp hr
  · split at h <;> cases h

/-- `hvs'` has the rounds, the round and the catch-up rounds of `hvs`: a call changed vote sets only. -/
structure SameRounds (hvs hvs' : HeightVoteSet) : Prop where
  mem_iff : ∀ k, k ∈ hvs'.roundVoteSets ↔ k ∈ hvs.roundVoteSets
  round : hvs'.round = hvs.round
  peerCatchupRounds : hvs'.peerCatchupRounds = hvs.peerCatchupRounds

theorem SameRounds.refl (hvs : HeightVoteSet) : SameRounds hvs hvs := ⟨fun _ => .rfl, rfl, rfl⟩

theorem sameRounds_setVoteSet {r : Int} {t : SignedMsgType} {voteSet : VoteSet} :
    SameRounds hvs (hvs.setVoteSet r t voteSet) :=
  ⟨fun _ => mem_setVoteSet, setVoteSet_round, setVoteSet_peerCatchupRounds⟩

theorem addToVoteSet_eq_ok {verify : Bool → Vote → Bool} {vote : Vote} {voteSet : VoteSet} {added : Bool}
    {err : Option AddVoteError} (h : hvs.addToVoteSet verify vote voteSet = .ok (hvs', added, err)) :
    SameRounds hvs hvs' := by
  unfold addToVoteSet at h
  split at h
  · cases h
  · obtain rfl := congrArg Prod.fst (Except.ok.inj h)
    exact sameRounds_setVoteSet

/-- `AddVote` either changes vote sets only, or opens `vote.round` as a catch-up round of `peerID`. -/
theorem addVote_eq_ok {verify : Bool → Vote → Bool} {vote : Vote} {peerID : P2PID} {extEnabled added : Bool}
    {err : Option AddVoteError} (h : hvs.addVote verify vote peerID extEnabled = .ok (hvs', added, err)) :
    SameRounds hvs hvs' ∨
      (vote.round ∉ hvs.roundVoteSets ∧ ((hvs.peerCatchupRounds.lookup peerID).getD []).length < 2 ∧
        (∀ k, k ∈ hvs'.roundVoteSets ↔ k ∈ hvs.roundVoteSets ∨ k = vote.round) ∧ hvs'.round = hvs.round ∧
        hvs'.peerCatchupRounds =
          hvs.peerCatchupRounds.insert peerID ((hvs.peerCatchupRounds.lookup peerID).getD [] ++ [vote.round])) := by
  unfold addVote at h
  split_ifs at h with hext hvalid
  · obtain rfl := congrArg Prod.fst (Except.ok.inj h)
    exact .inl (.refl hvs)
  split at h
  · cases h
  · exact .inl (addToVoteSet_eq_ok h)
  rename_i hnone
  dsimp only at h
  split_ifs at h with hlen
  · obtain rfl := congrArg Prod.fst (Except.ok.inj h)
    exact .inl (.refl hvs)
  -- the catch-up branch: `addRound`, the peer's list, then the vote set of the new round
  obtain ⟨hvs₁, h₁, h⟩ := except_bind_eq_ok.mp h
  obtain ⟨hr, rvs, rfl⟩ := addRound_eq_ok h₁
  obtain ⟨o, -, h⟩ := except_bind_eq_ok.mp h
  split at h
  · cases h
  have hsame := addToVoteSet_eq_ok h
  refine .inr ⟨hr, not_le.mp hlen, fun k => ?_, hsame.round, hsame.peerCatchupRounds⟩
  rw [hsame.mem_iff, AList.mem_insert, or_comm]

theorem setPeerMaj23_eq_ok {round : Int} {voteType : SignedMsgType} {peerID : P2PID} {blockID : BlockID}
    {err : Option SetPeerMaj23Error} (h : hvs.setPeerMaj23 round voteType peerID blockID = .ok (hvs', err)) :
    SameRounds hvs hvs' := by
  unfold setPeerMaj23 at h
  split_ifs at h
  · obtain rfl := congrArg Prod.fst (Except.ok.inj h)
    exact .refl hvs
  split at h
  · cases h
  · obtain rfl := congrArg Prod.fst (Except.ok.inj h)
    exact .refl hvs
  · obtain rfl := congrArg Prod.fst (Except.ok.inj h)
    exact sameRounds_setVoteSet

theorem getVoteSet_ne_existingRound {r k : Int} {t : SignedMsgType} :
    hvs.getVoteSet r t ≠ .error (.existingRound k) := by
  unfold getVoteSet
  split
  · simp
  · split <;> simp

theorem addToVoteSet_ne_existingRound {verify : Bool → Vote → Bool} {vote : Vote} {voteSet : VoteSet} {k : Int} :
    hvs.addToVoteSet verify vote voteSet ≠ .error (.existingRound k) := by
  unfold addToVoteSet
  split <;> simp

/-- `AddVote` calls `addRound` only for a round `getVoteSet` found no vote sets for. -/
theorem addVote_ne_existingRound {verify : Bool → Vote → Bool} {vote : Vote} {peerID : P2PID}
    {extEnabled : Bool} {k : Int} : hvs.addVote verify vote peerID extEnabled ≠ .error (.existingRound k) := by
  unfold addVote
  split_ifs
  · simp
  · simp
  split
  · rename_i hp
    intro hk
    cases hk
    exact getVoteSet_ne_existingRound hp
  · exact addToVoteSet_ne_existingRound
  rename_i hnone
  dsimp only
  split_ifs
  · simp
  refine except_bind_ne_error (addRound_ne_existingRound (not_mem_of_getVoteSet_eq_none hnone)) fun hvs₁ => ?_
  refine except_bind_ne_error getVoteSet_ne_existingRound fun o => ?_
  cases o
  · simp
  · exact addToVoteSet_ne_existingRound

/-! ### The invariant of the rounds -/

/-- What the rounds of a height vote set keep under the calls of the consensus state machine. -/
structure Inv (hvs : HeightVoteSet) : Prop where
  /-- every round from 0 to `round` has its vote sets -/
  tracked : ∀ r, 0 ≤ r → r ≤ hvs.round → r ∈ hvs.roundVoteSets
  catchup_le : ∀ p rs, hvs.peerCatchupRounds.lookup p = some rs → rs.length ≤ 2
  /-- a round above `round` was opened by a peer's catch-up vote -/
  catchup_above : ∀ r ∈ hvs.roundVoteSets, hvs.round < r →
    ∃ p rs, hvs.peerCatchupRounds.lookup p = some rs ∧ r ∈ rs

theorem Inv.sameRounds (hi : Inv hvs) (h : SameRounds hvs hvs') : Inv hvs' where
  tracked r h0 hr := (h.mem_iff r).mpr (hi.tracked r h0 (h.round ▸ hr))
  catchup_le p rs := h.peerCatchupRounds ▸ hi.catchup_le p rs
  catchup_above r hr hlt := h.peerCatchupRounds ▸ hi.catchup_above r ((h.mem_iff r).mp hr) (h.round ▸ hlt)

theorem Inv.reset {height : Int} {valSet : ValidatorSet} (h : hvs.reset height valSet = .ok hvs') : Inv hvs' := by
  obtain ⟨hround, hmem, hpeers⟩ := reset_eq_ok h
  refine ⟨fun r h0 hr => (hmem r).mpr (by omega), fun p rs => ?_, fun r hr hlt => ?_⟩
  · simp [hpeers]
  · rw [hmem r] at hr
    omega

theorem inv_newWith {ext : Bool} {chainID : String} {height : Int} {valSet : ValidatorSet}
    (h : newWith ext chainID height valSet = .ok hvs) : Inv hvs :=
  Inv.reset h

/-- `SetRound` to a round not below the current one: the rounds it adds cover the gap, and it keeps the
    rounds above the new round, which all were above the old one. -/
theorem Inv.setRound (hi : Inv hvs) {r : Int} (hle : hvs.round ≤ r) (h : hvs.setRound r = .ok hvs') :
    Inv hvs' := by
  obtain ⟨hround, hmem, hpeers⟩ := setRound_eq_ok h
  constructor
  · intro k h0 hk
    rw [hmem]
    by_cases hold : k ≤ hvs.round
    · exact .inl (hi.tracked k h0 hold)
    · exact .inr (by omega)
  · rw [hpeers]
    exact hi.catchup_le
  · intro k hk hlt
    rw [hmem] at hk
    rcases hk with hk | hk
    · rw [hpeers]
      exact hi.catchup_above k hk (by omega)
    · omega

/-- Appending a round to `peerID`'s catch-up list keeps every round of every peer's list. -/
theorem mem_lookup_insert_append {m : AList fun _ : P2PID => List Int} {p peerID : P2PID} {rs : List Int}
    {r x : Int} (hp : m.lookup p = some rs) (hr : r ∈ rs) :
    ∃ rs', (m.insert peerID ((m.lookup peerID).getD [] ++ [x])).lookup p = some rs' ∧ r ∈ rs' := by
  by_cases hpeer : p = peerID
  · subst hpeer
    exact ⟨_, AList.lookup_insert m, by simp [hp, hr]⟩
  · exact ⟨rs, by rw [AList.lookup_insert_ne hpeer, hp], hr⟩

theorem Inv.addVote (hi : Inv hvs) {verify : Bool → Vote → Bool} {vote : Vote} {peerID : P2PID}
    {extEnabled added : Bool} {err : Option AddVoteError}
    (h : hvs.addVote verify vote peerID extEnabled = .ok (hvs', added, err)) : Inv hvs' := by
  rcases addVote_eq_ok h with hsame | ⟨-, hlen, hmem, hround, hpeers⟩
  · exact hi.sameRounds hsame
  constructor
  · intro k h0 hk
    exact (hmem k).mpr (.inl (hi.tracked k h0 (hround ▸ hk)))
  · intro p rs hp
    rw [hpeers] at hp
    by_cases hpeer : p = peerID
    · subst hpeer
      rw [AList.lookup_insert, Option.some_inj] at hp
      rw [← hp, List.length_append, List.length_singleton]
      omega
    · rw [AList.lookup_insert_ne hpeer] at hp
      exact hi.catchup_le p rs hp
  · intro k hk hlt
    rw [hpeers]
    rcases (hmem k).mp hk with hk | rfl
    · obtain ⟨p, rs, hp, hr⟩ := hi.catchup_above k hk (hround ▸ hlt)
      exact ⟨p, mem_lookup_insert_append hp hr⟩
    -- the new round is the peer's newest catch-up round
    · exact ⟨peerID, _, AList.lookup_insert _, by simp⟩

theorem Inv.setPeerMaj23 (hi : Inv hvs) {round : Int} {voteType : SignedMsgType} {peerID : P2PID}
    {blockID : BlockID} {err : Option SetPeerMaj23Error}
    (h : hvs.setPeerMaj23 round voteType peerID blockID = .ok (hvs', err)) : Inv hvs' :=
  hi.sameRounds (setPeerMaj23_eq_ok h)

/-- The rounds above `round` are distinct and each is in some peer's catch-up list, so there are at most
    as many as those lists hold together. -/
theorem Inv.count_above_le (hi : Inv hvs) :
    (hvs.roundVoteSets.keys.filter (hvs.round < ·)).length ≤
      (hvs.peerCatchupRounds.entries.map (·.2.length)).sum := by
  have hnodup : (hvs.roundVoteSets.keys.filter (hvs.round < ·)).Nodup := hvs.roundVoteSets.keys_nodup.filter _
  have hsub : hvs.roundVoteSets.keys.filter (hvs.round < ·) ⊆ hvs.peerCatchupRounds.entries.flatMap (·.2) := by
    intro r hr
    rw [List.mem_filter, decide_eq_true_iff] at hr
    obtain ⟨p, rs, hp, hrs⟩ := hi.catchup_above r (AList.mem_keys.mp hr.1) hr.2
    exact List.mem_flatMap.mpr ⟨⟨p, rs⟩, AList.mem_lookup_iff.mp hp, hrs⟩
  calc (hvs.roundVoteSets.keys.filter (hvs.round < ·)).length
      ≤ (hvs.peerCatchupRounds.entries.flatMap (·.2)).length := (hnodup.subperm hsub).length_le
    _ = (hvs.peerCatchupRounds.entries.map (·.2.length)).sum := List.length_flatMap ..

/-- The states a height vote set reaches from `NewHeightVoteSet` or `NewExtendedHeightVoteSet` through
    `Reset`, `SetRound` to a round not below the current one, `AddVote` and `SetPeerMaj23`, each call
    returning without a panic. -/
inductive Reachable : HeightVoteSet → Prop
  | new {ext chainID height valSet hvs} : newWith ext chainID height valSet = .ok hvs → Reachable hvs
  | reset {hvs hvs' height valSet} : Reachable hvs → hvs.reset height valSet = .ok hvs' → Reachable hvs'
  | setRound {hvs hvs' r} : Reachable hvs → hvs.round ≤ r → hvs.setRound r = .ok hvs' → Reachable hvs'
  | addVote {hvs hvs' verify vote peerID extEnabled added err} : Reachable hvs →
      hvs.addVote verify vote peerID extEnabled = .ok (hvs', added, err) → Reachable hvs'
  | setPeerMaj23 {hvs hvs' round voteType peerID blockID err} : Reachable hvs →
      hvs.setPeerMaj23 round voteType peerID blockID = .ok (hvs', err) → Reachable hvs'

theorem Reachable.inv (h : Reachable hvs) : Inv hvs := by
  induction h with
  | new hnew => exact inv_newWith hnew
  | reset _ hreset => exact Inv.reset hreset
  | setRound _ hle hset ih => exact ih.setRound hle hset
  | addVote _ hadd ih => exact ih.addVote hadd
  | setPeerMaj23 _ hset ih => exact ih.setPeerMaj23 hset

theorem heightVoteSet_rounds_tracked (h : Reachable hvs) :
    (∀ r, 0 ≤ r → r ≤ hvs.round → r ∈ hvs.roundVoteSets) ∧
      (∀ p rs, hvs.peerCatchupRounds.lookup p = some rs → rs.length ≤ 2) ∧
      (hvs.roundVoteSets.keys.filter (hvs.round < ·)).length ≤
        (hvs.peerCatchupRounds.entries.map (·.2.length)).sum ∧
      ∀ k, (∀ height valSet, hvs.reset height valSet ≠ .error (.existingRound k)) ∧
        (∀ r, hvs.setRound r ≠ .error (.existingRound k)) ∧
        ∀ verify vote peerID extEnabled, hvs.addVote verify vote peerID extEnabled ≠ .error (.existingRound k) :=
  have hi := h.inv
  ⟨hi.tracked, hi.catchup_le, hi.count_above_le,
    fun _ => ⟨fun _ _ => reset_ne_existingRound, fun _ => setRound_ne_existingRound,
      fun _ _ _ _ => addVote_ne_existingRound⟩⟩

/-- A fresh set moved to round 1 has the vote sets of rounds 0 and 1. -/
theorem heightVoteSet_rounds_tracked_roundOne :
    ∃ hvs, (newHeightVoteSet "chain" 1 ⟨[], none⟩ >>= (·.setRound 1)) = .ok hvs ∧ hvs.round = 1 ∧
      ∀ r, 0 ≤ r → r ≤ 1 → r ∈ hvs.roundVoteSets := by
  have hrun : (newHeightVoteSet "chain" 1 ⟨[], none⟩ >>= (·.setRound 1)) = .ok _ := rfl
  obtain ⟨hvs₀, hnew, hset⟩ := except_bind_eq_ok.mp hrun
  have hround := (setRound_eq_ok hset).1
  have hle : hvs₀.round ≤ 1 := by
    unfold newHeightVoteSet newWith at hnew
    rw [(reset_eq_ok hnew).1]
    exact zero_le_one
  have htracked := (heightVoteSet_rounds_tracked (.setRound (.new hnew) hle hset)).1
  exact ⟨_, hrun, hround, hround ▸ htracked⟩

end HeightVoteSet

end CometBFT
