import CometBFT.Types.BlockID

/-! Votes (`types/vote.go`, `types/signed_msg_type.go`). The timestamp is nanoseconds since the epoch;
    signatures are opaque bytes, and whether one verifies is a parameter of the functions that check it. -/

namespace CometBFT

/-- `SignedMsgType`. -/
inductive SignedMsgType
  | unknown
  | prevote
  | precommit
  | proposal
  deriving Repr, DecidableEq

/-- `IsVoteTypeValid`. -/
def isVoteTypeValid : SignedMsgType → Bool
  | .prevote | .precommit => true
  | _ => false

/-- `Vote`. -/
structure Vote where
  type : SignedMsgType
  height : Int
  round : Int
  blockID : BlockID
  timestamp : Int
  validatorAddress : Address
  validatorIndex : Int
  signature : List UInt8
  extension : List UInt8
  extensionSignature : List UInt8
  deriving Repr, DecidableEq

end CometBFT
