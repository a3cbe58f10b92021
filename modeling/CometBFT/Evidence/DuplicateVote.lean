import CometBFT.Privval.FilePV
import CometBFT.Types.ValidatorSet

/-! Checking duplicate-vote evidence against a validator set (`internal/evidence/verify.go`,
    `VerifyDuplicateVote`). Validators carry no keys in this model: the address of a validator's public
    key is the parameter `pubKeyAddress`, and whether a signature verifies against it is the parameter
    `verifySignature`.

    Evidence is accepted only for two votes of one validator at one height, round and type, for
    different block IDs, each validly signed: their sign bytes are two different messages of one type,
    height and round. A `FilePV` run never signs two such messages, so evidence against a validator whose
    signatures all come from one run is never accepted, as long as signatures cannot be forged. -/

namespace CometBFT

/-- `PartSetHeader.Equals`. -/
def PartSetHeader.equals (a b : PartSetHeader) : Bool := a.total = b.total ∧ a.hash = b.hash

/-- `BlockID.Equals`: byte slices compare by content, so a nil hash equals an empty one. -/
def BlockID.equals (a b : BlockID) : Bool := a.hash = b.hash ∧ a.partSetHeader.equals b.partSetHeader

theorem BlockID.equals_iff {a b : BlockID} : a.equals b ↔ a = b := by
  obtain ⟨ah, ⟨at', aph⟩⟩ := a
  obtain ⟨bh, ⟨bt, bph⟩⟩ := b
  simp [BlockID.equals, PartSetHeader.equals]

namespace Evidence

open Privval

/-- `DuplicateVoteEvidence`; its time is not read by the check. -/
structure DuplicateVoteEvidence where
  voteA : Vote
  voteB : Vote
  totalVotingPower : Int
  validatorPower : Int
  deriving Repr

/-- The errors of `VerifyDuplicateVote`, with the values their messages print; `panic` is the panic of
    `VoteSignBytes`. -/
inductive DuplicateVoteError
  | addressNotValidatorAtHeight (address : Address) (height : Int)
  | hrtMismatch (voteA voteB : Vote)
  | validatorAddressesDoNotMatch (validatorA validatorB : Address)
  | sameBlockIDs (blockID : BlockID)
  | invalidEvidenceValidators (address pubKeyAddress : Address)
  | votingPowerDoesNotMatch (trustedVotingPower evidenceVotingPower : Int)
  | invalidSignatureA
  | invalidSignatureB
  | panic
  deriving Repr

section

variable (pubKeyAddress : Validator → Address) (verifySignature : Validator → List UInt8 → List UInt8 → Bool)

/-- `VerifyDuplicateVote`. -/
def verifyDuplicateVote (e : DuplicateVoteEvidence) (chainID : List UInt8) (valSet : ValidatorSet) :
    Except DuplicateVoteError Unit :=
  match valSet.getByAddress e.voteA.validatorAddress with
  | none => .error (.addressNotValidatorAtHeight e.voteA.validatorAddress e.voteA.height)
  | some val =>
    if e.voteA.height ≠ e.voteB.height ∨ e.voteA.round ≠ e.voteB.round ∨ e.voteA.type ≠ e.voteB.type then
      .error (.hrtMismatch e.voteA e.voteB)
    else if e.voteA.validatorAddress ≠ e.voteB.validatorAddress then
      .error (.validatorAddressesDoNotMatch e.voteA.validatorAddress e.voteB.validatorAddress)
    else if e.voteA.blockID.equals e.voteB.blockID then .error (.sameBlockIDs e.voteA.blockID)
    else if pubKeyAddress val ≠ e.voteA.validatorAddress then
      .error (.invalidEvidenceValidators e.voteA.validatorAddress (pubKeyAddress val))
    else if val.votingPower ≠ e.validatorPower then
      .error (.votingPowerDoesNotMatch val.votingPower e.validatorPower)
    else if valSet.totalVotingPower ≠ e.totalVotingPower then
      .error (.votingPowerDoesNotMatch valSet.totalVotingPower e.totalVotingPower)
    else
      match voteSignBytes chainID e.voteA with
      | none => .error .panic
      | some signBytesA =>
        if !verifySignature val signBytesA e.voteA.signature then .error .invalidSignatureA
        else
          match voteSignBytes chainID e.voteB with
          | none => .error .panic
          | some signBytesB =>
            if !verifySignature val signBytesB e.voteB.signature then .error .invalidSignatureB
            else .ok ()

/-- What an accepted piece of evidence holds: two votes of the named validator at one height, round and
    type, for different block IDs, whose sign bytes verify against its key. -/
theorem verifyDuplicateVote_eq_ok {e : DuplicateVoteEvidence} {chainID : List UInt8} {valSet : ValidatorSet}
    (h : verifyDuplicateVote pubKeyAddress verifySignature e chainID valSet = .ok ()) :
    ∃ val signBytesA signBytesB, valSet.getByAddress e.voteA.validatorAddress = some val ∧
      e.voteA.height = e.voteB.height ∧ e.voteA.round = e.voteB.round ∧ e.voteA.type = e.voteB.type ∧
      e.voteA.blockID ≠ e.voteB.blockID ∧
      voteSignBytes chainID e.voteA = some signBytesA ∧ voteSignBytes chainID e.voteB = some signBytesB ∧
      verifySignature val signBytesA e.voteA.signature ∧ verifySignature val signBytesB e.voteB.signature := by
  unfold verifyDuplicateVote at h
  split at h
  · cases h
  rename_i val hval
  split_ifs at h with hhrt haddr hsame
  split at h
  · cases h
  rename_i signBytesA hA
  split_ifs at h with hvA
  split at h
  · cases h
  rename_i signBytesB hB
  split_ifs at h with hvB
  simp only [not_or, not_not] at hhrt
  obtain ⟨hh, hr, ht⟩ := hhrt
  refine ⟨val, signBytesA, signBytesB, hval, hh, hr, ht, fun heq => hsame (BlockID.equals_iff.mpr heq), hA, hB,
    ?_, ?_⟩
  · simpa using hvA
  · simpa using hvB

end

/-! ### No false accusations -/

section

variable {pubKeyAddress : Validator → Address} {verifySignature : Validator → List UInt8 → List UInt8 → Bool}

/-- Accepted evidence holds two different sign bytes of one type, height and round, both verifying
    against the key of the validator it names. -/
theorem verifyDuplicateVote_signBytes_ne {e : DuplicateVoteEvidence} {chainID : List UInt8}
    {valSet : ValidatorSet} (h : verifyDuplicateVote pubKeyAddress verifySignature e chainID valSet = .ok ()) :
    ∃ val signBytesA signBytesB, valSet.getByAddress e.voteA.validatorAddress = some val ∧
      voteSignBytes chainID e.voteA = some signBytesA ∧ voteSignBytes chainID e.voteB = some signBytesB ∧
      signBytesA ≠ signBytesB ∧
      e.voteA.type = e.voteB.type ∧ e.voteA.height = e.voteB.height ∧ e.voteA.round = e.voteB.round ∧
      verifySignature val signBytesA e.voteA.signature ∧ verifySignature val signBytesB e.voteB.signature := by
  obtain ⟨val, sA, sB, hval, hh, hr, ht, hne, hA, hB, hvA, hvB⟩ := verifyDuplicateVote_eq_ok _ _ h
  exact ⟨val, sA, sB, hval, hA, hB, voteSignBytes_ne_of_blockID_ne hA hB ht hh hr hne, ht, hh, hr, hvA, hvB⟩

/-- Evidence against a validator whose signatures all come from one `FilePV` run, under a signature scheme
    where only what the run signed verifies, is never accepted; and accepted evidence always holds two
    different sign bytes of one type, height and round, both verifying against the validator's key. -/
theorem verifyDuplicateVote_no_false_accusation {sign : List UInt8 → List UInt8}
    {ε : Type} {unmarshal : List UInt8 → Except ε CanonicalVote} {lss : FilePVLastSignState}
    {reqs : List SignVoteRequest} {addr : Address} {chainID : List UInt8} {valSet : ValidatorSet}
    (hreqs : ∀ r ∈ reqs, Vote.FitsInt64 r.vote)
    (hunforgeable : ∀ val ∈ valSet.validators, val.address = addr → ∀ m sig, verifySignature val m sig →
      m ∈ (signVotes sign unmarshal lss reqs).1) :
    (∀ e : DuplicateVoteEvidence, e.voteA.validatorAddress = addr →
      verifyDuplicateVote pubKeyAddress verifySignature e chainID valSet ≠ .ok ()) ∧
    ∀ e : DuplicateVoteEvidence, verifyDuplicateVote pubKeyAddress verifySignature e chainID valSet = .ok () →
      ∃ val signBytesA signBytesB, valSet.getByAddress e.voteA.validatorAddress = some val ∧
        voteSignBytes chainID e.voteA = some signBytesA ∧ voteSignBytes chainID e.voteB = some signBytesB ∧
        signBytesA ≠ signBytesB ∧
        e.voteA.type = e.voteB.type ∧ e.voteA.height = e.voteB.height ∧ e.voteA.round = e.voteB.round ∧
        verifySignature val signBytesA e.voteA.signature ∧ verifySignature val signBytesB e.voteB.signature := by
  refine ⟨fun e he h => ?_, fun e => verifyDuplicateVote_signBytes_ne⟩
  obtain ⟨val, sA, sB, hval, hA, hB, hne, ht, hh, hr, hvA, hvB⟩ := verifyDuplicateVote_signBytes_ne h
  -- the accused validator's key only verifies what the run signed
  have hmem : val ∈ valSet.validators := List.mem_of_find?_eq_some hval
  have haddr : val.address = addr := by simpa [he] using List.find?_some hval
  have hi := (SignedInv.nil lss).signVotes sign unmarshal hreqs
  rw [List.nil_append] at hi
  -- and the run never signs two messages of one type, height and round
  exact hne (hi.unique sA (hunforgeable val hmem haddr _ _ hvA) sB (hunforgeable val hmem haddr _ _ hvB)
    chainID e.voteA chainID e.voteB hA hB ht (congrArg toUint64 hh) (congrArg toUint64 hr))

/-- A signer that has signed one precommit, under a key that verifies exactly what it signed, is not
    convicted by a second precommit at the same height and round. -/
theorem verifyDuplicateVote_no_false_accusation_precommit :
    verifyDuplicateVote (fun v => v.address)
      (fun _ m _ => decide (m ∈ (signVotes id (fun _ => (.error () : Except Unit CanonicalVote)) ⟨0, 0, 0, [], []⟩
        [⟨[], ⟨.precommit, 1, 0, ⟨List.replicate 32 1, ⟨1, List.replicate 32 2⟩⟩, 0, [7], 0, [], [], []⟩,
          true⟩]).1))
      ⟨⟨.precommit, 1, 0, ⟨List.replicate 32 1, ⟨1, List.replicate 32 2⟩⟩, 0, [7], 0, [], [], []⟩,
        ⟨.precommit, 1, 0, ⟨List.replicate 32 3, ⟨1, List.replicate 32 4⟩⟩, 0, [7], 0, [], [], []⟩, 10, 10⟩
      [] ⟨[⟨[7], 10, 0⟩], none⟩ ≠ .ok () :=
  (verifyDuplicateVote_no_false_accusation (by simp [Vote.FitsInt64, minInt64, maxInt64])
    (fun _ _ _ _ _ h => of_decide_eq_true h)).1 _ rfl

end

end Evidence

end CometBFT
