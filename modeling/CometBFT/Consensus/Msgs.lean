import CometBFT.Types.Vote
import CometBFT.Bits.BitArray

/-! The consensus messages that carry a bit array (`internal/consensus/msgs.go`, `reactor.go`): their wire
    form, `MsgFromProto` and their `ValidateBasic`.

    `MsgFromProto` decodes a bit array with `FromProto` into a fresh `new(bits.BitArray)`, so the message
    always holds a non-nil array with the wire's `Bits` and `Elems`. The checks that follow bound its
    `Size()`, which is `Bits`; none of them reads `Elems`. -/

namespace CometBFT

namespace Consensus

/-- `types.MaxVotesCount`. -/
def maxVotesCount : Int := 10000

/-- `types.MaxBlockPartsCount`: `MaxBlockSizeBytes / BlockPartSizeBytes + 1`. -/
def maxBlockPartsCount : Int := 104857600 / 65536 + 1

/-- `NewValidBlockMessage`. -/
structure NewValidBlockMessage where
  height : Int
  round : Int
  blockPartSetHeader : PartSetHeader
  blockParts : Option BitArray
  isCommit : Bool
  deriving Repr, DecidableEq

/-- `ProposalPOLMessage`. -/
structure ProposalPOLMessage where
  height : Int
  proposalPOLRound : Int
  proposalPOL : Option BitArray
  deriving Repr, DecidableEq

/-- `VoteSetBitsMessage`. -/
structure VoteSetBitsMessage where
  height : Int
  round : Int
  type : SignedMsgType
  blockID : BlockID
  votes : Option BitArray
  deriving Repr, DecidableEq

/-- The decoded messages that carry a bit array. -/
inductive Message
  | newValidBlock (m : NewValidBlockMessage)
  | proposalPOL (m : ProposalPOLMessage)
  | voteSetBits (m : VoteSetBitsMessage)
  deriving Repr, DecidableEq

/-- The errors of `MsgFromProto` and of the messages' `ValidateBasic`, with the fields they name:
    `ErrMsgToProto`, `ErrNegativeField`, `ErrInvalidField`, `ErrWrongField`, `ErrRequiredField`, and the two
    formatted errors on a bit array's size. -/
inductive MsgError
  | msgToProto (messageName : String) (err : FromProtoError)
  | negativeField (field : String)
  | invalidField (field : String)
  | wrongField (field : String) (err : FromProtoError)
  | requiredField (field : String)
  | sizeMismatch (size : Int) (total : UInt32)
  | tooBig (name : String) (size max : Int)
  deriving Repr, DecidableEq

/-- `NewValidBlockMessage.ValidateBasic`. -/
def NewValidBlockMessage.validateBasic (m : NewValidBlockMessage) : Except MsgError Unit :=
  if m.height < 0 then .error (.negativeField "Height")
  else if m.round < 0 then .error (.negativeField "Round")
  else match m.blockPartSetHeader.validateBasic with
    | .error e => .error (.wrongField "BlockPartSetHeader" (.hashSize e))
    | .ok () =>
      if BitArray.size m.blockParts = 0 then .error (.requiredField "blockParts")
      else if BitArray.size m.blockParts ≠ m.blockPartSetHeader.total.toNat then
        .error (.sizeMismatch (BitArray.size m.blockParts) m.blockPartSetHeader.total)
      else if BitArray.size m.blockParts > maxBlockPartsCount then
        .error (.tooBig "blockParts" (BitArray.size m.blockParts) maxBlockPartsCount)
      else .ok ()

/-- `ProposalPOLMessage.ValidateBasic`. -/
def ProposalPOLMessage.validateBasic (m : ProposalPOLMessage) : Except MsgError Unit :=
  if m.height < 0 then .error (.negativeField "Height")
  else if m.proposalPOLRound < 0 then .error (.negativeField "ProposalPOLRound")
  else if BitArray.size m.proposalPOL = 0 then .error (.requiredField "ProposalPOL")
  else if BitArray.size m.proposalPOL > maxVotesCount then
    .error (.tooBig "proposalPOL" (BitArray.size m.proposalPOL) maxVotesCount)
  else .ok ()

/-- `VoteSetBitsMessage.ValidateBasic`: the size of `Votes` may be zero. -/
def VoteSetBitsMessage.validateBasic (m : VoteSetBitsMessage) : Except MsgError Unit :=
  if m.height < 0 then .error (.negativeField "Height")
  else if !isVoteTypeValid m.type then .error (.invalidField "Type")
  else match m.blockID.validateBasic with
    | .error e => .error (.wrongField "BlockID" (.blockID e))
    | .ok () =>
      if BitArray.size m.votes > maxVotesCount then
        .error (.tooBig "votes" (BitArray.size m.votes) maxVotesCount)
      else .ok ()

/-- `ValidateBasic` of a decoded message. -/
def Message.validateBasic : Message → Except MsgError Unit
  | .newValidBlock m => m.validateBasic
  | .proposalPOL m => m.validateBasic
  | .voteSetBits m => m.validateBasic

/-- A decoded wire array is the wire's, whatever its words. -/
@[simp] theorem fromProto_new (p : BitArray.Proto) : BitArray.fromProto ⟨0, []⟩ (some p) = ⟨p.bits, p.elems⟩ := by
  simp only [BitArray.fromProto, BitArray.mk.injEq, true_and]
  split_ifs with h
  · rfl
  · simp only [gt_iff_lt, Nat.pos_iff_ne_zero, ne_eq, List.length_eq_zero_iff, not_not] at h
    rw [h]

/-- The bit arrays of a decoded message, as `ValidateBasic` bounds their sizes: a block's parts as many as
    its header's total, at least one and at most `MaxBlockPartsCount`; a POL's votes of a size other than
    zero up to `MaxVotesCount`; a vote set's bits up to `MaxVotesCount`. Nothing bounds the words. -/
def Message.Sized : Message → Prop
  | .newValidBlock m => ∃ bA, m.blockParts = some bA ∧ bA.bits = m.blockPartSetHeader.total.toNat ∧
      0 < bA.bits ∧ bA.bits ≤ maxBlockPartsCount
  | .proposalPOL m => ∃ bA, m.proposalPOL = some bA ∧ bA.bits ≠ 0 ∧ bA.bits ≤ maxVotesCount
  | .voteSetBits m => ∃ bA, m.votes = some bA ∧ bA.bits ≤ maxVotesCount

end Consensus

end CometBFT
