import CometBFT.Lib.Rotation
import CometBFT.Lib.Tally
import CometBFT.Lib.Word
import CometBFT.Lib.SortedKeys
import CometBFT.Lib.Rescale
import CometBFT.Types.Validator
import CometBFT.Types.ValidatorSet
import CometBFT.Types.ProposerRotation
import CometBFT.Types.ChangeSet
import CometBFT.Types.ChangeSetSpec
import CometBFT.Types.ProposerSelection
import CometBFT.Bits.BitArray
import CometBFT.Types.BlockID
import CometBFT.Types.Vote
import CometBFT.Types.VoteSet
import CometBFT.Types.VoteSetTally
import CometBFT.Consensus.Msgs
import CometBFT.Mempool.CListMempool
import CometBFT.Mempool.Reap
import CometBFT.Mempool.Invariant
import CometBFT.Mempool.Cache
import CometBFT.Lib.Channel
import CometBFT.Light.Detector
import CometBFT.Lib.PrefixCode
import CometBFT.Types.Canonical
import CometBFT.Lib.Framing
import CometBFT.Protoio.Delimited
import CometBFT.Privval.FilePV
import CometBFT.Evidence.DuplicateVote
import CometBFT.Lib.MerkleTree
import CometBFT.Crypto.Merkle.Tree
import CometBFT.Crypto.Merkle.Proof
import CometBFT.Crypto.Merkle.KeyPath
import CometBFT.Crypto.Merkle.ProofOp
import CometBFT.Types.Validation
import CometBFT.State.MedianTime
import CometBFT.Lib.AList
import CometBFT.Blocksync.Pool
import CometBFT.Blocksync.PoolInvariant
import CometBFT.Types.Params
import CometBFT.Lib.LinkedChain
import CometBFT.CList.CList
import CometBFT.CList.Invariant
import CometBFT.Consensus.HeightVoteSet
import CometBFT.Lib.Loop
import CometBFT.Light.Skipping
import CometBFT.P2P.SecretConnection
import CometBFT.Lib.Chunks
import CometBFT.Types.PartSet
import CometBFT.Lib.Reassembly
import CometBFT.P2P.MConnection
import CometBFT.P2P.MConnectionInvariant
import CometBFT.P2P.MConnectionDrain
import CometBFT.P2P.MConnectionWire
