import CometBFT.Types.Vote
import CometBFT.Types.ValidatorSet
import CometBFT.Bits.BitArray

/-! Vote sets (`types/vote_set.go`): the votes of one height, round and type, with the tally of their
    validators' power.

    `votes` keeps one vote per validator index, usually the first seen; `votesByBlock` keeps, per block
    key, the votes for that block, and a block only collects a validator's conflicting vote when a peer
    claimed a two-thirds majority for it (`SetPeerMaj23`). The first block whose tally crosses two thirds
    of the total power becomes `maj23`, and its votes are copied into `votes`.

    The Go maps are functions here, with `Function.update` for an assignment. A method that mutates the
    set returns the new set; `none` is a panic. Whether a vote's signature (and, in an extended set, its
    extension's) verifies against its validator's key is the parameter `verify`. -/

namespace CometBFT

/-- `P2PID`. -/
abbrev P2PID := String

/-- `blockVotes`: the votes for one block, by validator index. -/
structure BlockVotes where
  peerMaj23 : Bool
  bitArray : Option BitArray
  votes : List (Option Vote)
  sum : Int
  deriving Repr, DecidableEq

/-- `newBlockVotes`. -/
def newBlockVotes (peerMaj23 : Bool) (numValidators : Nat) : BlockVotes :=
  { peerMaj23 := peerMaj23, bitArray := newBitArray numValidators, votes := List.replicate numValidators none,
    sum := 0 }

namespace BlockVotes

/-- `addVerifiedVote`: a vote at an index with none yet is counted; another is ignored. -/
def addVerifiedVote (vs : BlockVotes) (vote : Vote) (votingPower : Int) : Option BlockVotes := do
  let valIndex := vote.validatorIndex
  match ← sliceAt vs.votes valIndex with
  | some _ => some vs
  | none =>
    let (bitArray, _) ← BitArray.setIndex vs.bitArray valIndex true
    some { vs with bitArray := bitArray, votes := vs.votes.set valIndex.toNat (some vote), sum := vs.sum + votingPower }

/-- `getByIndex`, on a possibly nil `blockVotes`. -/
def getByIndex : Option BlockVotes → Int → Option (Option Vote)
  | none, _ => some none
  | some vs, index => sliceAt vs.votes index

end BlockVotes

/-- `VoteSet`. -/
structure VoteSet where
  chainID : String
  height : Int
  round : Int
  signedMsgType : SignedMsgType
  valSet : ValidatorSet
  extensionsEnabled : Bool
  votesBitArray : Option BitArray
  votes : List (Option Vote)
  sum : Int
  maj23 : Option BlockID
  votesByBlock : List UInt8 → Option BlockVotes
  peerMaj23s : P2PID → Option BlockID

/-- `NewVoteSet`: it panics on height zero. -/
def newVoteSet (chainID : String) (height round : Int) (signedMsgType : SignedMsgType) (valSet : ValidatorSet) :
    Option VoteSet :=
  if height = 0 then none
  else some
    { chainID := chainID, height := height, round := round, signedMsgType := signedMsgType, valSet := valSet,
      extensionsEnabled := false, votesBitArray := newBitArray valSet.validators.length,
      votes := List.replicate valSet.validators.length none, sum := 0, maj23 := none,
      votesByBlock := fun _ => none, peerMaj23s := fun _ => none }

/-- `NewExtendedVoteSet`. -/
def newExtendedVoteSet (chainID : String) (height round : Int) (signedMsgType : SignedMsgType)
    (valSet : ValidatorSet) : Option VoteSet :=
  (newVoteSet chainID height round signedMsgType valSet).map fun vs => { vs with extensionsEnabled := true }

/-- The errors of `AddVote`, with the values their messages print. -/
inductive VoteError
  | nilVote
  | negativeIndex
  | emptyAddress
  | unexpectedStep (expected got : Int × Int × SignedMsgType)
  | validatorNotFound (index : Int) (size : Nat)
  | addressMismatch (address lookupAddr : Address) (index : Int)
  | nonDeterministicSignature (existing vote : Vote)
  | invalidSignature (extended : Bool)
  | unexpectedExtension (extLen sigLen : Nat)
  | conflictingVotes (conflicting vote : Vote)
  deriving Repr, DecidableEq

/-- The error of `SetPeerMaj23` on a peer that claimed another block. -/
structure PeerMaj23Error where
  peerID : P2PID
  got : BlockID
  expected : BlockID
  deriving Repr, DecidableEq

namespace VoteSet

/-- `getVote`: the vote of `valIndex` for the block, from `votes` or from the block's votes. -/
def getVote (voteSet : VoteSet) (valIndex : Int) (blockKey : List UInt8) : Option (Option Vote) := do
  match ← sliceAt voteSet.votes valIndex with
  | some existing =>
    if existing.blockID.key = blockKey then some (some existing)
    else BlockVotes.getByIndex (voteSet.votesByBlock blockKey) valIndex
  | none => BlockVotes.getByIndex (voteSet.votesByBlock blockKey) valIndex

/-- `votes[valIndex] = vote` with its bit set. -/
def putVote (voteSet : VoteSet) (vote : Vote) : Option VoteSet :=
  (BitArray.setIndex voteSet.votesBitArray vote.validatorIndex true).map fun r =>
    { voteSet with votes := voteSet.votes.set vote.validatorIndex.toNat (some vote), votesBitArray := r.1 }

/-- The first half of `addVerifiedVote`: a validator's first vote goes into `votes` and `sum`; a vote that
    conflicts with the one there replaces it only when it is for `maj23`, and is returned as conflicting. It
    panics on a second vote for the same block. -/
def recordVote (voteSet : VoteSet) (vote : Vote) (blockKey : List UInt8) (votingPower : Int) :
    Option Vote → Option (VoteSet × Option Vote)
  | some existing =>
    if existing.blockID = vote.blockID then none
    else if voteSet.maj23.map BlockID.key = some blockKey then
      (voteSet.putVote vote).map fun voteSet => (voteSet, some existing)
    else some (voteSet, some existing)
  | none => (voteSet.putVote vote).map fun voteSet => ({ voteSet with sum := voteSet.sum + votingPower }, none)

/-- The loop of `addVerifiedVote` that copies a block's votes into `votes`. -/
def copyVotes : List (Option Vote) → List (Option Vote) → List (Option Vote)
  | v :: votes, b :: blockVotes => b.or v :: copyVotes votes blockVotes
  | votes, [] => votes
  | [], _ :: _ => []

/-- The second half of `addVerifiedVote`: the vote goes into its block's votes, and when that block's
    tally crosses the quorum and there is no `maj23` yet, the block becomes `maj23`. -/
def addToBlock (voteSet : VoteSet) (vote : Vote) (blockKey : List UInt8) (votingPower : Int)
    (votesByBlock : BlockVotes) : Option VoteSet := do
  let origSum := votesByBlock.sum
  let quorum := (voteSet.valSet.totalVotingPower * 2).tdiv 3 + 1
  let votesByBlock ← votesByBlock.addVerifiedVote vote votingPower
  let voteSet := { voteSet with votesByBlock := Function.update voteSet.votesByBlock blockKey (some votesByBlock) }
  if origSum < quorum ∧ quorum ≤ votesByBlock.sum ∧ voteSet.maj23 = none then
    some { voteSet with maj23 := some vote.blockID, votes := copyVotes voteSet.votes votesByBlock.votes }
  else some voteSet

/-- `addVerifiedVote`: the set, whether the vote was added, and the vote it conflicts with. A conflicting
    vote is only added to a block a peer claimed. -/
def addVerifiedVote (voteSet : VoteSet) (vote : Vote) (blockKey : List UInt8) (votingPower : Int) :
    Option (VoteSet × Bool × Option Vote) := do
  let existing ← sliceAt voteSet.votes vote.validatorIndex
  let (voteSet, conflicting) ← voteSet.recordVote vote blockKey votingPower existing
  match voteSet.votesByBlock blockKey with
  | some votesByBlock =>
    if conflicting.isSome ∧ !votesByBlock.peerMaj23 then return (voteSet, false, conflicting)
    else (voteSet.addToBlock vote blockKey votingPower votesByBlock).map fun voteSet => (voteSet, true, conflicting)
  | none =>
    if conflicting.isSome then return (voteSet, false, conflicting)
    else
      (voteSet.addToBlock vote blockKey votingPower (newBlockVotes false voteSet.valSet.validators.length)).map
        fun voteSet => (voteSet, true, conflicting)

/-- `addVote` after the signature check: a conflict is an error, and a vote neither added nor conflicting
    is a panic. -/
def addChecked (voteSet : VoteSet) (vote : Vote) (votingPower : Int) : Option (VoteSet × Bool × Option VoteError) := do
  let (voteSet', added, conflicting) ← voteSet.addVerifiedVote vote vote.blockID.key votingPower
  match conflicting with
  | some c => some (voteSet', added, some (.conflictingVotes c vote))
  | none => if added then some (voteSet', true, none) else none

/-- `AddVote`: the set, whether the vote was added, and the error. An error leaves the set as it was, but
    a conflicting vote may be added along with its error. -/
def addVote (verify : Bool → Vote → Bool) (voteSet : VoteSet) : Option Vote → Option (VoteSet × Bool × Option VoteError)
  | none => some (voteSet, false, some .nilVote)
  | some vote =>
    let valIndex := vote.validatorIndex
    let valAddr := vote.validatorAddress
    let blockKey := vote.blockID.key
    if valIndex < 0 then some (voteSet, false, some .negativeIndex)
    else if valAddr.length = 0 then some (voteSet, false, some .emptyAddress)
    else if vote.height ≠ voteSet.height ∨ vote.round ≠ voteSet.round ∨ vote.type ≠ voteSet.signedMsgType then
      some (voteSet, false,
        some (.unexpectedStep (voteSet.height, voteSet.round, voteSet.signedMsgType) (vote.height, vote.round, vote.type)))
    else match voteSet.valSet.getByIndex valIndex with
      | none => some (voteSet, false, some (.validatorNotFound valIndex voteSet.valSet.validators.length))
      | some val =>
        if valAddr ≠ val.address then some (voteSet, false, some (.addressMismatch valAddr val.address valIndex))
        else do
          match ← voteSet.getVote valIndex blockKey with
          | some existing =>
            if existing.signature = vote.signature then some (voteSet, false, none)
            else some (voteSet, false, some (.nonDeterministicSignature existing vote))
          | none =>
            if voteSet.extensionsEnabled then
              if !verify true vote then some (voteSet, false, some (.invalidSignature true))
              else voteSet.addChecked vote val.votingPower
            else if !verify false vote then some (voteSet, false, some (.invalidSignature false))
            else if vote.extensionSignature.length > 0 ∨ vote.extension.length > 0 then
              some (voteSet, false, some (.unexpectedExtension vote.extension.length vote.extensionSignature.length))
            else voteSet.addChecked vote val.votingPower

/-- `SetPeerMaj23`: record the block a peer claims a majority for, and track that block's votes. -/
def setPeerMaj23 (voteSet : VoteSet) (peerID : P2PID) (blockID : BlockID) : VoteSet × Option PeerMaj23Error :=
  let blockKey := blockID.key
  match voteSet.peerMaj23s peerID with
  | some existing =>
    if existing = blockID then (voteSet, none) else (voteSet, some ⟨peerID, blockID, existing⟩)
  | none =>
    let voteSet := { voteSet with peerMaj23s := Function.update voteSet.peerMaj23s peerID (some blockID) }
    match voteSet.votesByBlock blockKey with
    | some votesByBlock =>
      if votesByBlock.peerMaj23 then (voteSet, none)
      else
        ({ voteSet with
            votesByBlock := Function.update voteSet.votesByBlock blockKey (some { votesByBlock with peerMaj23 := true }) },
          none)
    | none =>
      ({ voteSet with
          votesByBlock :=
            Function.update voteSet.votesByBlock blockKey (some (newBlockVotes true voteSet.valSet.validators.length)) },
        none)

/-- One call on a vote set: `AddVote` of any vote, or `SetPeerMaj23` of any peer and block. -/
inductive Step (verify : Bool → Vote → Bool) : VoteSet → VoteSet → Prop
  | addVote {voteSet voteSet' : VoteSet} (vote : Option Vote) (added : Bool) (err : Option VoteError) :
      voteSet.addVote verify vote = some (voteSet', added, err) → Step verify voteSet voteSet'
  | setPeerMaj23 {voteSet voteSet' : VoteSet} (peerID : P2PID) (blockID : BlockID) (err : Option PeerMaj23Error) :
      voteSet.setPeerMaj23 peerID blockID = (voteSet', err) → Step verify voteSet voteSet'

/-- The vote `votes[i]`. -/
def voteAt (voteSet : VoteSet) (i : Nat) : Option Vote := (voteSet.votes[i]?).join

end VoteSet

/-- The vote `votes[i]` of a block's votes. -/
def BlockVotes.voteAt (vs : BlockVotes) (i : Nat) : Option Vote := (vs.votes[i]?).join

end CometBFT
