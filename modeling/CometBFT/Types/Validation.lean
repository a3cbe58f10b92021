import CometBFT.Evidence.DuplicateVote
import CometBFT.Lib.Tally

/-! Commit verification (`types/validation.go`), with the commit signatures of `types/block.go` and the
    batch verifiers of `crypto/batch`.

    `verifyCommitSingle` walks the signatures, skips the ignored ones and those of unknown addresses,
    checks each signature as it meets it and adds the power of the counted ones, and returns as soon as
    the tally passes `votingPowerNeeded` unless all signatures must be checked. `verifyCommitBatch` walks
    them the same way but adds them to a batch verifier, created for the key type of the proposer, and
    verifies the batch once the tally passes. Both loops share the lookup of a signature's validator:
    by its index, or by its address with each validator at most once.

    A `Validator` here has no public key; `pubKey` gives it, and `verifySignature` is the key's
    `VerifySignature`. The batch verifier's `Verify` is modelled as it is assumed to behave: it
    accepts exactly when every triple it holds verifies on its own. Nil pointers are not modelled; an
    index out of range and the other runtime panics are `CommitError.panic`. -/

namespace CometBFT

/-! ### Commits -/

/-- `BlockIDFlag`; `unknown` stands for every byte other than the three flags. -/
inductive BlockIDFlag
  | unknown
  | absent
  | commit
  | nil
  deriving Repr, DecidableEq

/-- `CommitSig`. -/
structure CommitSig where
  blockIDFlag : BlockIDFlag
  validatorAddress : Address
  timestamp : Int
  signature : List UInt8
  deriving Repr, DecidableEq

/-- `Commit`. -/
structure Commit where
  height : Int
  round : Int
  blockID : BlockID
  signatures : List CommitSig
  deriving Repr, DecidableEq

/-- `crypto.AddressSize`. -/
def addressSize : Nat := 20

/-- `MaxSignatureSize`. -/
def maxSignatureSize : Nat := 64

/-- The zero `time.Time`, January 1 of year 1, in nanoseconds since the epoch. -/
def zeroTime : Int := minValidSeconds * 1000000000

/-- The errors of `CommitSig.ValidateBasic`. -/
inductive CommitSigError
  | unknownFlag
  | addressPresent
  | timePresent
  | signaturePresent
  | addressSize (got : Nat)
  | signatureMissing
  | signatureTooBig
  deriving Repr, DecidableEq

/-- `CommitSig.ValidateBasic`. -/
def CommitSig.validateBasic (cs : CommitSig) : Except CommitSigError Unit :=
  match cs.blockIDFlag with
  | .unknown => .error .unknownFlag
  | .absent =>
    if cs.validatorAddress.length ≠ 0 then .error .addressPresent
    else if cs.timestamp ≠ zeroTime then .error .timePresent
    else if cs.signature.length ≠ 0 then .error .signaturePresent
    else .ok ()
  | .commit | .nil =>
    if cs.validatorAddress.length ≠ addressSize then .error (.addressSize cs.validatorAddress.length)
    else if cs.signature.length = 0 then .error .signatureMissing
    else if cs.signature.length > maxSignatureSize then .error .signatureTooBig
    else .ok ()

/-- `CommitSig.BlockID`: the commit's block ID for a vote for it, else the empty one; `none` is the panic
    on an unknown flag. -/
def CommitSig.blockID (cs : CommitSig) (commitBlockID : BlockID) : Option BlockID :=
  match cs.blockIDFlag with
  | .absent => some ⟨[], ⟨0, []⟩⟩
  | .commit => some commitBlockID
  | .nil => some ⟨[], ⟨0, []⟩⟩
  | .unknown => none

/-- `Commit.GetVote`; `none` is its panic on an index out of range. -/
def Commit.getVote (commit : Commit) (valIdx : Nat) : Option Vote := do
  let commitSig ← commit.signatures[valIdx]?
  let blockID ← commitSig.blockID commit.blockID
  pure
    { type := .precommit, height := commit.height, round := commit.round, blockID,
      timestamp := commitSig.timestamp, validatorAddress := commitSig.validatorAddress,
      validatorIndex := valIdx, signature := commitSig.signature, extension := [], extensionSignature := [] }

/-- `Commit.VoteSignBytes`; `none` is a panic. -/
def Commit.voteSignBytes (commit : Commit) (chainID : List UInt8) (valIdx : Nat) : Option (List UInt8) := do
  let vote ← commit.getVote valIdx
  CometBFT.voteSignBytes chainID vote

/-- The errors of `Commit.ValidateBasic`. -/
inductive CommitValidationError
  | negativeHeight
  | negativeRound
  | nilBlock
  | noSignatures
  | wrongCommitSig (i : Nat) (e : CommitSigError)
  deriving Repr, DecidableEq

/-- `Commit.ValidateBasic`: the signatures are checked from a height of one on. -/
def Commit.validateBasic (commit : Commit) : Except CommitValidationError Unit :=
  if commit.height < 0 then .error .negativeHeight
  else if commit.round < 0 then .error .negativeRound
  else if commit.height ≥ 1 then
    if commit.blockID.isNil then .error .nilBlock
    else if commit.signatures.length = 0 then .error .noSignatures
    else commit.signatures.zipIdx.forM fun (commitSig, i) => commitSig.validateBasic.mapError (.wrongCommitSig i)
  else .ok ()

/-! ### Keys and batch verifiers -/

/-- The key types of `crypto/ed25519`, `crypto/secp256k1` and `crypto/sr25519`. -/
inductive KeyType
  | ed25519
  | secp256k1
  | sr25519
  deriving Repr, DecidableEq

/-- `crypto.PubKey`: its type and its bytes. -/
structure PubKey where
  keyType : KeyType
  bytes : List UInt8
  deriving Repr, DecidableEq

/-- `batchVerifyThreshold`. -/
def batchVerifyThreshold : Nat := 2

/-- `batch.SupportsBatchVerifier`. -/
def supportsBatchVerifier : Option PubKey → Bool
  | some ⟨.ed25519, _⟩ | some ⟨.sr25519, _⟩ => true
  | _ => false

/-- A batch verifier of one key type, with the triples of key, message and signature added to it. -/
structure BatchVerifier where
  keyType : KeyType
  entries : List (PubKey × List UInt8 × List UInt8)
  deriving Repr, DecidableEq

/-- `batch.CreateBatchVerifier`. -/
def createBatchVerifier (pk : PubKey) : Option BatchVerifier :=
  match pk.keyType with
  | .ed25519 => some ⟨.ed25519, []⟩
  | .sr25519 => some ⟨.sr25519, []⟩
  | .secp256k1 => none

/-- The errors of `BatchVerifier.Add`. -/
inductive BatchAddError
  | wrongKeyType
  | invalidKeyLen (got : Nat)
  | invalidSignature
  deriving Repr, DecidableEq

/-- `BatchVerifier.Add` of `crypto/ed25519` and `crypto/sr25519`: the key must be of the verifier's type
    (a nil key is not) and 32 bytes long, and the signature 64 bytes long. -/
def BatchVerifier.add (bv : BatchVerifier) (key : Option PubKey) (msg signature : List UInt8) :
    Except BatchAddError BatchVerifier :=
  match key with
  | none => .error .wrongKeyType
  | some key =>
    if key.keyType ≠ bv.keyType then .error .wrongKeyType
    else if key.bytes.length ≠ 32 then .error (.invalidKeyLen key.bytes.length)
    else if signature.length ≠ 64 then .error .invalidSignature
    else .ok { bv with entries := bv.entries ++ [(key, msg, signature)] }

theorem BatchVerifier.add_eq_ok {bv bv' : BatchVerifier} {key : Option PubKey} {msg signature : List UInt8} :
    bv.add key msg signature = .ok bv' ↔
      ∃ k, key = some k ∧ k.keyType = bv.keyType ∧ k.bytes.length = 32 ∧ signature.length = 64 ∧
        bv' = { bv with entries := bv.entries ++ [(k, msg, signature)] } := by
  constructor
  · intro h
    rcases key with _ | k
    · cases h
    by_cases h₁ : k.keyType = bv.keyType
    swap
    · simp [BatchVerifier.add, h₁] at h
    by_cases h₂ : k.bytes.length = 32
    swap
    · simp [BatchVerifier.add, h₁, h₂] at h
    by_cases h₃ : signature.length = 64
    swap
    · simp [BatchVerifier.add, h₁, h₂, h₃] at h
    simp only [BatchVerifier.add, h₁, h₂, h₃, ne_eq, not_true_eq_false, if_false, Except.ok.injEq] at h
    exact ⟨k, rfl, h₁, h₂, h₃, h.symm⟩
  · rintro ⟨k, rfl, h₁, h₂, h₃, rfl⟩
    simp [BatchVerifier.add, h₁, h₂, h₃]

/-- The validator at `address`, with its index (`GetByAddress`). -/
def ValidatorSet.getIndexedByAddress (vals : ValidatorSet) (address : Address) : Option (Nat × Validator) :=
  (vals.validators.zipIdx.find? (·.1.address = address)).map fun (val, idx) => (idx, val)

/-- The errors of commit verification, with the values their messages print. -/
inductive CommitError
  | invalidCommitSignatures (expected got : Nat)
  | invalidCommitHeight (expected got : Int)
  | wrongBlockID
  | invalidSignatures (idx : Nat)
  | doubleVote (firstIndex secondIndex : Nat)
  | nilPubKey (idx : Nat)
  | wrongSignature (idx : Nat) (signature : List UInt8)
  | wrongCommitSig (idx : Nat) (sig : CommitSig)
  | notEnoughVotingPowerSigned (got needed : Int)
  | batchUnsupported
  | batchAdd (e : BatchAddError)
  | batchBug
  | zeroDenominator
  | overflow
  | panic
  deriving Repr, DecidableEq

/-- The lookup both loops make for the signature at `idx`: the index and the validator, by index or by
    address, and the validators seen, which only the lookup by address keeps; `none` skips a signature
    whose address is not in the set. -/
def lookUp (vals : ValidatorSet) (lookUpByIndex : Bool) (idx : Nat) (commitSig : CommitSig)
    (seenVals : List (Nat × Nat)) : Except CommitError (Option (Nat × Validator × List (Nat × Nat))) :=
  if lookUpByIndex then
    match vals.validators[idx]? with
    | none => .error .panic
    | some val => .ok (some (idx, val, seenVals))
  else
    match vals.getIndexedByAddress commitSig.validatorAddress with
    | none => .ok none
    | some (valIdx, val) =>
      match seenVals.lookup valIdx with
      | some firstIndex => .error (.doubleVote firstIndex idx)
      | none => .ok (some (valIdx, val, (valIdx, idx) :: seenVals))

/-- The validators a loop has used before the signature at `idx`: by index those below `idx`, by address
    those it has seen. -/
def Visited (lookUpByIndex : Bool) (idx : Nat) (seenVals : List (Nat × Nat)) (j : Nat) : Prop :=
  if lookUpByIndex then j < idx else j ∈ seenVals.map Prod.fst

/-- The index of the validator that the lookup gives for the signature at `idx`. -/
def selectIndex (vals : ValidatorSet) (lookUpByIndex : Bool) (idx : Nat) (commitSig : CommitSig) : Option Nat :=
  if lookUpByIndex then (if idx < vals.validators.length then some idx else none)
  else (vals.getIndexedByAddress commitSig.validatorAddress).map Prod.fst

theorem getIndexedByAddress_eq_some {vals : ValidatorSet} {address : Address} {j : Nat} {val : Validator}
    (h : vals.getIndexedByAddress address = some (j, val)) : vals.validators[j]? = some val := by
  obtain ⟨⟨val', j'⟩, hfind, heq⟩ := Option.map_eq_some_iff.mp h
  cases heq
  obtain ⟨-, hlt, hval⟩ := List.mem_zipIdx (List.mem_of_find?_eq_some hfind)
  rw [hval]
  simp

theorem Visited.succ {lookUpByIndex : Bool} {idx : Nat} {seenVals : List (Nat × Nat)} {j : Nat}
    (h : Visited lookUpByIndex idx seenVals j) : Visited lookUpByIndex (idx + 1) seenVals j := by
  unfold Visited at *
  split_ifs at * <;> omega

section
variable {vals : ValidatorSet} {lookUpByIndex : Bool} {idx : Nat} {commitSig : CommitSig}
  {seenVals : List (Nat × Nat)}

/-- A lookup that finds a validator gives the validator at the index `selectIndex` names, one not used
    before, and marks it used. -/
theorem lookUp_eq_some {j : Nat} {val : Validator} {seenVals' : List (Nat × Nat)}
    (h : lookUp vals lookUpByIndex idx commitSig seenVals = .ok (some (j, val, seenVals'))) :
    selectIndex vals lookUpByIndex idx commitSig = some j ∧ vals.validators[j]? = some val ∧
      ¬Visited lookUpByIndex idx seenVals j ∧
      ∀ j', Visited lookUpByIndex (idx + 1) seenVals' j' ↔ Visited lookUpByIndex idx seenVals j' ∨ j' = j := by
  unfold lookUp at h
  cases hbi : lookUpByIndex
  · -- by address: the first validator with the address, not seen before
    simp only [hbi, Bool.false_eq_true, if_false] at h
    rcases hget : vals.getIndexedByAddress commitSig.validatorAddress with _ | ⟨j₀, val₀⟩
    · simp [hget] at h
    rcases hseen : List.lookup j₀ seenVals with _ | firstIndex
    · simp only [hget, hseen, Except.ok.injEq, Option.some.injEq, Prod.mk.injEq] at h
      obtain ⟨rfl, rfl, rfl⟩ := h
      have hfresh : j₀ ∉ seenVals.map Prod.fst := by
        rw [List.lookup_eq_none_iff] at hseen
        simp only [List.mem_map, not_exists, not_and]
        rintro ⟨k, i⟩ hk rfl
        simpa using hseen _ hk
      refine ⟨by simp [selectIndex, hget], getIndexedByAddress_eq_some hget, by simpa [Visited] using hfresh, ?_⟩
      intro j'
      simp [Visited, or_comm, eq_comm]
    · simp [hget, hseen] at h
  · -- by index: the validator at the signature's own index
    simp only [hbi, if_true] at h
    rcases hv : vals.validators[idx]? with _ | val₀
    · simp [hv] at h
    simp only [hv, Except.ok.injEq, Option.some.injEq, Prod.mk.injEq] at h
    obtain ⟨rfl, rfl, rfl⟩ := h
    have hlt : idx < vals.validators.length := (List.getElem?_eq_some_iff.mp hv).1
    refine ⟨by simp [selectIndex, hlt], hv, by simp [Visited], ?_⟩
    intro j'
    simp only [Visited, if_true]
    omega

end

/-- The power of the validator at index `j`. -/
def powerAt (vals : ValidatorSet) (j : Nat) : Int := (vals.validators[j]?.map (·.votingPower)).getD 0

theorem sum_powerAt (vals : ValidatorSet) :
    ∑ j ∈ Finset.range vals.validators.length, powerAt vals j = vals.totalVotingPower := by
  unfold powerAt ValidatorSet.totalVotingPower
  induction vals.validators with
  | nil => simp
  | cons v l ih =>
    rw [List.length_cons, Finset.sum_range_succ', List.map_cons, List.sum_cons, add_comm]
    simp [ih]

theorem powerAt_nonneg {vals : ValidatorSet} (hw : ∀ v ∈ vals.validators, 0 ≤ v.votingPower) (j : Nat) :
    0 ≤ powerAt vals j := by
  unfold powerAt
  rcases h : vals.validators[j]? with _ | v
  · simp
  · simpa using hw v (List.mem_of_getElem? h)

theorem totalVotingPower_nonneg {vals : ValidatorSet} (hw : ∀ v ∈ vals.validators, 0 ≤ v.votingPower) :
    0 ≤ vals.totalVotingPower := by
  rw [← sum_powerAt]
  exact Finset.sum_nonneg fun j _ => powerAt_nonneg hw j

/-- Counting a validator not counted before adds its power, and the tally stays in the int64 range. -/
theorem wrapInt64_tally_fill {vals : ValidatorSet} (hw : ∀ v ∈ vals.validators, 0 ≤ v.votingPower)
    (hT : vals.totalVotingPower ≤ maxTotalVotingPower) {counted : ℕ → Bool} {j : Nat} {val : Validator}
    (hval : vals.validators[j]? = some val) (hj : counted j = false) :
    wrapInt64 (Tally.tally vals.validators.length (powerAt vals) counted + val.votingPower) =
      Tally.tally vals.validators.length (powerAt vals) (fun j' => counted j' || decide (j' = j)) := by
  have hlt : j < vals.validators.length := (List.getElem?_eq_some_iff.mp hval).1
  have hpow : powerAt vals j = val.votingPower := by simp [powerAt, hval]
  have hnonneg : ∀ i < vals.validators.length, 0 ≤ powerAt vals i := fun i _ => powerAt_nonneg hw i
  have hfill := Tally.tally_fill (w := powerAt vals) hlt hj (fun _ _ => rfl)
  -- the new tally lies between zero and the total power
  have hle := Tally.tally_le_total (f := fun j' => counted j' || decide (j' = j)) hnonneg
  have hge := Tally.tally_mono (f := fun _ => false) (g := fun j' => counted j' || decide (j' = j)) hnonneg
    (by simp)
  rw [Tally.tally_none] at hge
  rw [sum_powerAt] at hle
  rw [← hpow, ← hfill, wrapInt64_of_mem]
  · simp only [minInt64]
    omega
  · simp only [maxTotalVotingPower, maxInt64] at hT ⊢
    omega

/-! ### The two loops -/

/-- A signature a loop uses: its index in the commit, the signature, and the index and the validator
    the lookup gives. -/
structure Signer where
  idx : Nat
  sig : CommitSig
  valIdx : Nat
  val : Validator
  deriving Repr, DecidableEq

section
variable (verifySignature : PubKey → List UInt8 → List UInt8 → Bool) (pubKey : Validator → Option PubKey)
  (chainID : List UInt8) (vals : ValidatorSet) (commit : Commit) (votingPowerNeeded : Int)
  (ignoreSig countSig : CommitSig → Bool) (countAllSignatures lookUpByIndex : Bool)

/-- The loop of `verifyCommitSingle` from the signature at `idx`, with the validators seen and the tally;
    after the last signature it compares the tally with `votingPowerNeeded`. -/
def singleLoop : Nat → List CommitSig → List (Nat × Nat) → Int → Except CommitError Unit
  | _, [], _, talliedVotingPower =>
    if talliedVotingPower ≤ votingPowerNeeded then
      .error (.notEnoughVotingPowerSigned talliedVotingPower votingPowerNeeded)
    else .ok ()
  | idx, commitSig :: rest, seenVals, talliedVotingPower =>
    if ignoreSig commitSig then singleLoop (idx + 1) rest seenVals talliedVotingPower
    else
      match commitSig.validateBasic with
      | .error _ => .error (.invalidSignatures idx)
      | .ok () =>
        match lookUp vals lookUpByIndex idx commitSig seenVals with
        | .error e => .error e
        | .ok none => singleLoop (idx + 1) rest seenVals talliedVotingPower
        | .ok (some (_, val, seenVals)) =>
          match pubKey val with
          | none => .error (.nilPubKey idx)
          | some key =>
            match commit.voteSignBytes chainID idx with
            | none => .error .panic
            | some voteSignBytes =>
              if !verifySignature key voteSignBytes commitSig.signature then
                .error (.wrongSignature idx commitSig.signature)
              else
                let talliedVotingPower :=
                  if countSig commitSig then wrapInt64 (talliedVotingPower + val.votingPower) else talliedVotingPower
                if !countAllSignatures ∧ talliedVotingPower > votingPowerNeeded then .ok ()
                else singleLoop (idx + 1) rest seenVals talliedVotingPower

/-- `verifyCommitSingle`. -/
def verifyCommitSingle : Except CommitError Unit :=
  singleLoop verifySignature pubKey chainID vals commit votingPowerNeeded ignoreSig countSig countAllSignatures
    lookUpByIndex 0 commit.signatures [] 0

/-- The loop of `verifyCommitBatch` from the signature at `idx`: the verifier, the indices of the
    batched signatures and the tally when it ends or breaks. -/
def batchLoop : BatchVerifier → Nat → List CommitSig → List (Nat × Nat) → List Nat → Int →
    Except CommitError (BatchVerifier × List Nat × Int)
  | bv, _, [], _, batchSigIdxs, talliedVotingPower => .ok (bv, batchSigIdxs, talliedVotingPower)
  | bv, idx, commitSig :: rest, seenVals, batchSigIdxs, talliedVotingPower =>
    if ignoreSig commitSig then batchLoop bv (idx + 1) rest seenVals batchSigIdxs talliedVotingPower
    else
      match lookUp vals lookUpByIndex idx commitSig seenVals with
      | .error e => .error e
      | .ok none => batchLoop bv (idx + 1) rest seenVals batchSigIdxs talliedVotingPower
      | .ok (some (_, val, seenVals)) =>
        match commit.voteSignBytes chainID idx with
        | none => .error .panic
        | some voteSignBytes =>
          match bv.add (pubKey val) voteSignBytes commitSig.signature with
          | .error e => .error (.batchAdd e)
          | .ok bv =>
            let batchSigIdxs := batchSigIdxs ++ [idx]
            let talliedVotingPower :=
              if countSig commitSig then wrapInt64 (talliedVotingPower + val.votingPower) else talliedVotingPower
            if !countAllSignatures ∧ talliedVotingPower > votingPowerNeeded then
              .ok (bv, batchSigIdxs, talliedVotingPower)
            else batchLoop bv (idx + 1) rest seenVals batchSigIdxs talliedVotingPower

/-- `BatchVerifier.Verify`, as it is assumed to behave: whether all triples verify, and which do. -/
def BatchVerifier.verify (bv : BatchVerifier) : Bool × List Bool :=
  let validSigs := bv.entries.map fun (key, msg, sig) => verifySignature key msg sig
  (validSigs.all id, validSigs)

/-- `verifyCommitBatch`: the verifier is created for the proposer's key; after the loop, a failed batch
    reports its first invalid signature. -/
def verifyCommitBatch : Except CommitError Unit :=
  match vals.getProposer with
  | some (some proposer) =>
    match pubKey proposer with
    | none => .error .panic
    | some proposerKey =>
      match createBatchVerifier proposerKey with
      | none => .error .batchUnsupported
      | some bv =>
        if commit.signatures.length < batchVerifyThreshold then .error .batchUnsupported
        else
          match batchLoop pubKey chainID vals commit votingPowerNeeded ignoreSig countSig countAllSignatures
              lookUpByIndex bv 0 commit.signatures [] [] 0 with
          | .error e => .error e
          | .ok (bv, batchSigIdxs, talliedVotingPower) =>
            if talliedVotingPower ≤ votingPowerNeeded then
              .error (.notEnoughVotingPowerSigned talliedVotingPower votingPowerNeeded)
            else
              let (ok, validSigs) := bv.verify verifySignature
              if ok then .ok ()
              else
                match (validSigs.zip batchSigIdxs).find? (fun p => !p.1) with
                | some (_, idx) =>
                  match commit.signatures[idx]? with
                  | some sig => .error (.wrongCommitSig idx sig)
                  | none => .error .panic
                | none => .error .batchBug
  | _ => .error .panic

/-! ### What the loops accept -/

/-- What both loops do before they verify anything: the signatures they use, each with the validator
    the lookup gives, and the tally, up to the end or to the break once the tally passes
    `votingPowerNeeded`. -/
def selectLoop : Nat → List CommitSig → List (Nat × Nat) → Int → Except CommitError (List Signer × Int)
  | _, [], _, talliedVotingPower => .ok ([], talliedVotingPower)
  | idx, commitSig :: rest, seenVals, talliedVotingPower =>
    if ignoreSig commitSig then selectLoop (idx + 1) rest seenVals talliedVotingPower
    else
      match lookUp vals lookUpByIndex idx commitSig seenVals with
      | .error e => .error e
      | .ok none => selectLoop (idx + 1) rest seenVals talliedVotingPower
      | .ok (some (valIdx, val, seenVals)) =>
        let talliedVotingPower :=
          if countSig commitSig then wrapInt64 (talliedVotingPower + val.votingPower) else talliedVotingPower
        if !countAllSignatures ∧ talliedVotingPower > votingPowerNeeded then
          .ok ([⟨idx, commitSig, valIdx, val⟩], talliedVotingPower)
        else (fun r => (⟨idx, commitSig, valIdx, val⟩ :: r.1, r.2)) <$>
          selectLoop (idx + 1) rest seenVals talliedVotingPower

/-- Whether some signature not ignored and counted selects the validator at `j`, with a signature that
    verifies under the validator's key over its sign bytes: the validators whose power a commit shows. -/
def signedBy (j : Nat) : Bool :=
  (List.range commit.signatures.length).any fun i =>
    match commit.signatures[i]? with
    | none => false
    | some cs =>
      !ignoreSig cs && countSig cs && selectIndex vals lookUpByIndex i cs == some j &&
        match vals.validators[j]?.bind pubKey, commit.voteSignBytes chainID i with
        | some key, some msg => verifySignature key msg cs.signature
        | _, _ => false

/-- The voting power of the validators `signedBy` names. -/
def signedPower : Int :=
  Tally.tally vals.validators.length (powerAt vals)
    (signedBy verifySignature pubKey chainID vals commit ignoreSig countSig lookUpByIndex)

/-- The signature of a signer verifies under the key of its validator, over its sign bytes. -/
def SigOk (s : Signer) : Prop :=
  ∃ key msg, pubKey s.val = some key ∧ commit.voteSignBytes chainID s.idx = some msg ∧
    verifySignature key msg s.sig.signature = true

/-- `verifyCommitSingle` accepts only when the signatures it uses all verify and their tally passes
    `votingPowerNeeded`. -/
theorem singleLoop_eq_ok {idx : Nat} {rest : List CommitSig} {seenVals : List (Nat × Nat)} {t : Int}
    (h : singleLoop verifySignature pubKey chainID vals commit votingPowerNeeded ignoreSig countSig
      countAllSignatures lookUpByIndex idx rest seenVals t = .ok ()) :
    ∃ sel t', selectLoop vals votingPowerNeeded ignoreSig countSig countAllSignatures lookUpByIndex idx rest
        seenVals t = .ok (sel, t') ∧ votingPowerNeeded < t' ∧
      ∀ s ∈ sel, SigOk verifySignature pubKey chainID commit s := by
  induction rest generalizing idx seenVals t with
  | nil =>
    rw [singleLoop] at h
    split_ifs at h with hle
    exact ⟨[], t, rfl, by omega, by simp⟩
  | cons cs rest ih =>
    by_cases hign : ignoreSig cs = true
    · rw [singleLoop, if_pos hign] at h
      rw [selectLoop, if_pos hign]
      exact ih h
    rw [singleLoop, if_neg hign] at h
    rw [selectLoop, if_neg hign]
    rcases hvb : cs.validateBasic with e | ⟨⟩
    · simp [hvb] at h
    rcases hl : lookUp vals lookUpByIndex idx cs seenVals with e | _ | ⟨j, val, seen'⟩
    · simp [hvb, hl] at h
    · simp only [hvb, hl] at h ⊢
      exact ih h
    -- a signature of a validator: its key, its sign bytes and its verification
    simp only [hvb, hl] at h ⊢
    rcases hk : pubKey val with _ | key
    · simp [hk] at h
    rcases hm : commit.voteSignBytes chainID idx with _ | msg
    · simp [hk, hm] at h
    by_cases hv : verifySignature key msg cs.signature = true
    swap
    · simp [hk, hm, hv] at h
    have hsig : SigOk verifySignature pubKey chainID commit ⟨idx, cs, j, val⟩ := ⟨key, msg, hk, hm, hv⟩
    simp only [hk, hm, hv, Bool.not_true, Bool.false_eq_true, if_false] at h
    generalize (if countSig cs = true then wrapInt64 (t + val.votingPower) else t) = t₁ at h ⊢
    split_ifs at h ⊢ with hexit
    · exact ⟨_, _, rfl, hexit.2, by simpa using hsig⟩
    · obtain ⟨sel, t', hsel, hN, hok⟩ := ih h
      refine ⟨_, t', by rw [hsel]; rfl, hN, ?_⟩
      simpa [hsig] using hok

/-- `verifyCommitBatch`'s loop uses the signatures `selectLoop` names, and adds each one, with its key
    and sign bytes, to the verifier. -/
theorem batchLoop_eq_ok {bv bv' : BatchVerifier} {idx : Nat} {rest : List CommitSig}
    {seenVals : List (Nat × Nat)} {idxs idxs' : List Nat} {t t' : Int}
    (h : batchLoop pubKey chainID vals commit votingPowerNeeded ignoreSig countSig countAllSignatures
      lookUpByIndex bv idx rest seenVals idxs t = .ok (bv', idxs', t')) :
    ∃ sel, selectLoop vals votingPowerNeeded ignoreSig countSig countAllSignatures lookUpByIndex idx rest
        seenVals t = .ok (sel, t') ∧ (∀ e ∈ bv.entries, e ∈ bv'.entries) ∧
      ∀ s ∈ sel, ∃ key msg, pubKey s.val = some key ∧ commit.voteSignBytes chainID s.idx = some msg ∧
        (key, msg, s.sig.signature) ∈ bv'.entries := by
  induction rest generalizing bv idx seenVals idxs t with
  | nil =>
    rw [batchLoop] at h
    cases h
    exact ⟨[], rfl, fun _ he => he, by simp⟩
  | cons cs rest ih =>
    by_cases hign : ignoreSig cs = true
    · rw [batchLoop, if_pos hign] at h
      rw [selectLoop, if_pos hign]
      exact ih h
    rw [batchLoop, if_neg hign] at h
    rw [selectLoop, if_neg hign]
    rcases hl : lookUp vals lookUpByIndex idx cs seenVals with e | _ | ⟨j, val, seen'⟩
    · simp [hl] at h
    · simp only [hl] at h ⊢
      exact ih h
    -- a signature of a validator is added with its key and sign bytes
    simp only [hl] at h ⊢
    rcases hm : commit.voteSignBytes chainID idx with _ | msg
    · simp [hm] at h
    rcases hadd : bv.add (pubKey val) msg cs.signature with e | bv₁
    · simp [hm, hadd] at h
    obtain ⟨key, hk, -, -, -, rfl⟩ := BatchVerifier.add_eq_ok.mp hadd
    simp only [hm, hadd] at h
    generalize (if countSig cs = true then wrapInt64 (t + val.votingPower) else t) = t₁ at h ⊢
    split_ifs at h ⊢ with hexit
    · simp only [Except.ok.injEq, Prod.mk.injEq] at h
      obtain ⟨rfl, -, rfl⟩ := h
      exact ⟨_, rfl, fun e he => by simp [he], by simp [hk, hm]⟩
    · obtain ⟨sel, hsel, hmono, hmem⟩ := ih h
      refine ⟨_, by rw [hsel]; rfl, fun e he => hmono e (by simp [he]), ?_⟩
      simp only [List.mem_cons, forall_eq_or_imp]
      exact ⟨⟨key, msg, hk, hm, hmono _ (by simp)⟩, hmem⟩

/-- Each signer is a signature of the commit, not ignored, with the validator its lookup names. -/
theorem selectLoop_mem {idx : Nat} {seenVals : List (Nat × Nat)} {t t' : Int} {sel : List Signer}
    (h : selectLoop vals votingPowerNeeded ignoreSig countSig countAllSignatures lookUpByIndex idx
      (commit.signatures.drop idx) seenVals t = .ok (sel, t')) :
    ∀ s ∈ sel, commit.signatures[s.idx]? = some s.sig ∧ ignoreSig s.sig = false ∧
      selectIndex vals lookUpByIndex s.idx s.sig = some s.valIdx ∧ vals.validators[s.valIdx]? = some s.val := by
  generalize hrest : commit.signatures.drop idx = rest at h
  induction rest generalizing idx seenVals t sel with
  | nil =>
    cases h
    simp
  | cons cs rest ih =>
    -- the signature at `idx` is `cs`, and the loop goes on from `idx + 1`
    have hcs : commit.signatures[idx]? = some cs := by rw [← List.head?_drop, hrest]; rfl
    have hnext : commit.signatures.drop (idx + 1) = rest := by rw [← List.tail_drop, hrest]; rfl
    rw [selectLoop] at h
    by_cases hign : ignoreSig cs = true
    · rw [if_pos hign] at h
      exact ih hnext h
    rw [if_neg hign] at h
    rcases hl : lookUp vals lookUpByIndex idx cs seenVals with e | _ | ⟨j, val, seen'⟩
    · simp [hl] at h
    · simp only [hl] at h
      exact ih hnext h
    simp only [hl] at h
    obtain ⟨hsel, hval, -, -⟩ := lookUp_eq_some hl
    have hs : commit.signatures[idx]? = some cs ∧ ignoreSig cs = false ∧
        selectIndex vals lookUpByIndex idx cs = some j ∧ vals.validators[j]? = some val :=
      ⟨hcs, by simpa using hign, hsel, hval⟩
    generalize (if countSig cs = true then wrapInt64 (t + val.votingPower) else t) = t₁ at h
    split_ifs at h with hexit
    · cases h
      simpa using hs
    · obtain ⟨⟨sel', t''⟩, hrec, heq⟩ := except_map_eq_ok.mp h
      cases heq
      simpa [hs] using ih hnext hrec

/-- With nonnegative powers of total at most `MaxTotalVotingPower`, the tally never wraps: from a tally of
    the validators `counted`, all used before, the loop ends with the tally of those and of the counted
    signers. -/
theorem selectLoop_tally (hw : ∀ v ∈ vals.validators, 0 ≤ v.votingPower)
    (hT : vals.totalVotingPower ≤ maxTotalVotingPower) {idx : Nat} {rest : List CommitSig}
    {seenVals : List (Nat × Nat)} {counted : ℕ → Bool} {sel : List Signer} {t' : Int}
    (hcounted : ∀ j, counted j = true → Visited lookUpByIndex idx seenVals j)
    (h : selectLoop vals votingPowerNeeded ignoreSig countSig countAllSignatures lookUpByIndex idx rest seenVals
      (Tally.tally vals.validators.length (powerAt vals) counted) = .ok (sel, t')) :
    t' = Tally.tally vals.validators.length (powerAt vals)
      (fun j => counted j || sel.any fun s => s.valIdx == j && countSig s.sig) := by
  induction rest generalizing idx seenVals counted sel with
  | nil =>
    cases h
    simp
  | cons cs rest ih =>
    rw [selectLoop] at h
    by_cases hign : ignoreSig cs = true
    · rw [if_pos hign] at h
      exact ih (fun j hj => (hcounted j hj).succ) h
    rw [if_neg hign] at h
    rcases hl : lookUp vals lookUpByIndex idx cs seenVals with e | _ | ⟨j, val, seen'⟩
    · simp [hl] at h
    · simp only [hl] at h
      exact ih (fun j hj => (hcounted j hj).succ) h
    simp only [hl] at h
    obtain ⟨-, hval, hfresh, hvisit⟩ := lookUp_eq_some hl
    have hj : counted j = false := by
      by_contra hc
      exact hfresh (hcounted j (by simpa using hc))
    -- the validators counted once this signer is
    have htally : (if countSig cs = true then
          wrapInt64 (Tally.tally vals.validators.length (powerAt vals) counted + val.votingPower)
        else Tally.tally vals.validators.length (powerAt vals) counted) =
        Tally.tally vals.validators.length (powerAt vals) (fun j' => counted j' || (j == j' && countSig cs)) := by
      split_ifs with hcount
      · rw [wrapInt64_tally_fill hw hT hval hj]
        exact Tally.tally_congr fun j' _ => by simp [hcount, eq_comm, beq_eq_decide]
      · exact Tally.tally_congr fun j' _ => by simp [hcount]
    have hcounted' : ∀ j', (counted j' || (j == j' && countSig cs)) = true →
        Visited lookUpByIndex (idx + 1) seen' j' := by
      intro j' hj'
      rw [hvisit]
      simp only [Bool.or_eq_true, Bool.and_eq_true, beq_iff_eq] at hj'
      rcases hj' with hc | ⟨rfl, -⟩
      · exact .inl (hcounted j' hc)
      · exact .inr rfl
    rw [htally] at h
    split_ifs at h with hexit
    · cases h
      exact Tally.tally_congr fun j' _ => by simp
    · obtain ⟨⟨sel', t''⟩, hrec, heq⟩ := except_map_eq_ok.mp h
      cases heq
      rw [ih hcounted' hrec]
      exact Tally.tally_congr fun j' _ => by simp [Bool.or_assoc]

/-- A tally over signers that all verify is at most the signed power: each counted signer names a
    validator `signedBy` takes in. -/
theorem lt_signedPower (hw : ∀ v ∈ vals.validators, 0 ≤ v.votingPower)
    (hT : vals.totalVotingPower ≤ maxTotalVotingPower) {sel : List Signer} {t : Int}
    (h : selectLoop vals votingPowerNeeded ignoreSig countSig countAllSignatures lookUpByIndex 0
      commit.signatures [] 0 = .ok (sel, t))
    (hN : votingPowerNeeded < t) (hok : ∀ s ∈ sel, SigOk verifySignature pubKey chainID commit s) :
    votingPowerNeeded < signedPower verifySignature pubKey chainID vals commit ignoreSig countSig lookUpByIndex := by
  have ht := selectLoop_tally vals votingPowerNeeded ignoreSig countSig countAllSignatures lookUpByIndex hw hT
    (fun j (hj : false = true) => by simp at hj) (by rw [Tally.tally_none]; exact h)
  have hmem := selectLoop_mem vals commit votingPowerNeeded ignoreSig countSig countAllSignatures lookUpByIndex
    (by rw [List.drop_zero]; exact h)
  have hsigned : ∀ j < vals.validators.length, (false || sel.any fun s => s.valIdx == j && countSig s.sig) = true →
      signedBy verifySignature pubKey chainID vals commit ignoreSig countSig lookUpByIndex j = true := by
    intro j _ hj
    simp only [Bool.false_or, List.any_eq_true, Bool.and_eq_true, beq_iff_eq] at hj
    obtain ⟨s, hs, rfl, hcount⟩ := hj
    obtain ⟨hsig, hign, hsel, hval⟩ := hmem s hs
    obtain ⟨key, msg, hk, hm, hv⟩ := hok s hs
    have hlt : s.idx < commit.signatures.length := (List.getElem?_eq_some_iff.mp hsig).1
    simp only [signedBy, List.any_eq_true, List.mem_range]
    exact ⟨s.idx, hlt, by simp [hsig, hign, hcount, hsel, hval, hk, hm, hv]⟩
  calc votingPowerNeeded < t := hN
    _ = _ := ht
    _ ≤ _ := Tally.tally_mono (fun i _ => powerAt_nonneg hw i) hsigned

/-- A batch that verifies holds only signatures that verify. -/
theorem BatchVerifier.verify_fst {bv : BatchVerifier} (h : (bv.verify verifySignature).1 = true)
    {key : PubKey} {msg sig : List UInt8} (he : (key, msg, sig) ∈ bv.entries) : verifySignature key msg sig = true := by
  simp only [BatchVerifier.verify, List.all_map, List.all_eq_true, Function.comp_apply, id] at h
  exact h _ he

/-- `verifyCommitBatch` accepts only when the signatures its loop uses all verify and their tally passes
    `votingPowerNeeded`. -/
theorem verifyCommitBatch_eq_ok
    (h : verifyCommitBatch verifySignature pubKey chainID vals commit votingPowerNeeded ignoreSig countSig
      countAllSignatures lookUpByIndex = .ok ()) :
    ∃ sel t, selectLoop vals votingPowerNeeded ignoreSig countSig countAllSignatures lookUpByIndex 0
        commit.signatures [] 0 = .ok (sel, t) ∧ votingPowerNeeded < t ∧
      ∀ s ∈ sel, SigOk verifySignature pubKey chainID commit s := by
  unfold verifyCommitBatch at h
  rcases hp : vals.getProposer with _ | _ | proposer
  · simp [hp] at h
  · simp [hp] at h
  rcases hk : pubKey proposer with _ | proposerKey
  · simp [hp, hk] at h
  rcases hbv : createBatchVerifier proposerKey with _ | bv
  · simp [hp, hk, hbv] at h
  simp only [hp, hk, hbv] at h
  split_ifs at h with hlen
  rcases hloop : batchLoop pubKey chainID vals commit votingPowerNeeded ignoreSig countSig countAllSignatures
      lookUpByIndex bv 0 commit.signatures [] [] 0 with e | ⟨bv', idxs, t⟩
  · simp [hloop] at h
  simp only [hloop] at h
  split_ifs at h with hle hok
  swap
  · -- a failed batch reports an error
    split at h
    · split at h <;> cases h
    · cases h
  obtain ⟨sel, hsel, -, hmem⟩ := batchLoop_eq_ok pubKey chainID vals commit votingPowerNeeded ignoreSig countSig
    countAllSignatures lookUpByIndex hloop
  refine ⟨sel, t, hsel, by omega, fun s hs => ?_⟩
  obtain ⟨key, msg, hk, hm, he⟩ := hmem s hs
  exact ⟨key, msg, hk, hm, BatchVerifier.verify_fst verifySignature hok he⟩

section
variable (hw : ∀ v ∈ vals.validators, 0 ≤ v.votingPower) (hT : vals.totalVotingPower ≤ maxTotalVotingPower)
include hw hT

/-- A commit `verifyCommitSingle` accepts shows more than `votingPowerNeeded` of signed power. -/
theorem verifyCommitSingle_signedPower
    (h : verifyCommitSingle verifySignature pubKey chainID vals commit votingPowerNeeded ignoreSig countSig
      countAllSignatures lookUpByIndex = .ok ()) :
    votingPowerNeeded < signedPower verifySignature pubKey chainID vals commit ignoreSig countSig lookUpByIndex := by
  obtain ⟨sel, t, hsel, hN, hok⟩ := singleLoop_eq_ok verifySignature pubKey chainID vals commit votingPowerNeeded
    ignoreSig countSig countAllSignatures lookUpByIndex h
  exact lt_signedPower verifySignature pubKey chainID vals commit votingPowerNeeded ignoreSig countSig
    countAllSignatures lookUpByIndex hw hT hsel hN hok

/-- A commit `verifyCommitBatch` accepts shows more than `votingPowerNeeded` of signed power. -/
theorem verifyCommitBatch_signedPower
    (h : verifyCommitBatch verifySignature pubKey chainID vals commit votingPowerNeeded ignoreSig countSig
      countAllSignatures lookUpByIndex = .ok ()) :
    votingPowerNeeded < signedPower verifySignature pubKey chainID vals commit ignoreSig countSig lookUpByIndex := by
  obtain ⟨sel, t, hsel, hN, hok⟩ := verifyCommitBatch_eq_ok verifySignature pubKey chainID vals commit
    votingPowerNeeded ignoreSig countSig countAllSignatures lookUpByIndex h
  exact lt_signedPower verifySignature pubKey chainID vals commit votingPowerNeeded ignoreSig countSig
    countAllSignatures lookUpByIndex hw hT hsel hN hok

end

end

/-! ### The entry points -/

section
variable (verifySignature : PubKey → List UInt8 → List UInt8 → Bool) (pubKey : Validator → Option PubKey)
  (chainID : List UInt8) (vals : ValidatorSet) (commit : Commit)

/-- `shouldBatchVerify`; `none` is the panic of reading the key of the nil proposer of an empty set. -/
def shouldBatchVerify : Option Bool :=
  if commit.signatures.length < batchVerifyThreshold then some false
  else
    match vals.getProposer with
    | some (some proposer) => some (supportsBatchVerifier (pubKey proposer))
    | _ => none

/-- `verifyBasicValsAndCommit`. -/
def verifyBasicValsAndCommit (height : Int) (blockID : BlockID) : Except CommitError Unit :=
  if vals.validators.length ≠ commit.signatures.length then
    .error (.invalidCommitSignatures vals.validators.length commit.signatures.length)
  else if height ≠ commit.height then .error (.invalidCommitHeight height commit.height)
  else if !blockID.equals commit.blockID then .error .wrongBlockID
  else .ok ()

/-- The call both entry points end with: batch verification when `shouldBatchVerify`, else single. -/
def verifyCommitWith (votingPowerNeeded : Int) (ignoreSig countSig : CommitSig → Bool)
    (countAllSignatures lookUpByIndex : Bool) : Except CommitError Unit :=
  match shouldBatchVerify pubKey vals commit with
  | none => .error .panic
  | some true =>
    verifyCommitBatch verifySignature pubKey chainID vals commit votingPowerNeeded ignoreSig countSig
      countAllSignatures lookUpByIndex
  | some false =>
    verifyCommitSingle verifySignature pubKey chainID vals commit votingPowerNeeded ignoreSig countSig
      countAllSignatures lookUpByIndex

/-- `VerifyCommit`: absent signatures are ignored and only those for the block count. `TotalVotingPower`
    is at most `MaxTotalVotingPower`, so the product does not overflow. -/
def verifyCommit (blockID : BlockID) (height : Int) : Except CommitError Unit := do
  verifyBasicValsAndCommit vals commit height blockID
  let votingPowerNeeded := (vals.totalVotingPower * 2).tdiv 3
  verifyCommitWith verifySignature pubKey chainID vals commit votingPowerNeeded
    (fun c => c.blockIDFlag = .absent) (fun c => c.blockIDFlag = .commit) true true

/-- `verifyCommitLightInternal`: only signatures for the block are used, and all of them count. -/
def verifyCommitLightInternal (blockID : BlockID) (height : Int) (countAllSignatures : Bool) :
    Except CommitError Unit := do
  verifyBasicValsAndCommit vals commit height blockID
  let votingPowerNeeded := (vals.totalVotingPower * 2).tdiv 3
  verifyCommitWith verifySignature pubKey chainID vals commit votingPowerNeeded
    (fun c => c.blockIDFlag ≠ .commit) (fun _ => true) countAllSignatures true

/-- `VerifyCommitLight`. -/
def verifyCommitLight (blockID : BlockID) (height : Int) : Except CommitError Unit :=
  verifyCommitLightInternal verifySignature pubKey chainID vals commit blockID height false

/-- `cmtmath.Fraction`. -/
structure Fraction where
  numerator : UInt64
  denominator : UInt64
  deriving Repr, DecidableEq

/-- `verifyCommitLightTrustingInternal`: the validators are looked up by address, and the trust level's
    `uint64` numerator and denominator are converted to `int64`. -/
def verifyCommitLightTrustingInternal (trustLevel : Fraction) (countAllSignatures : Bool) :
    Except CommitError Unit :=
  if trustLevel.denominator = 0 then .error .zeroDenominator
  else
    let (totalVotingPowerMulByNumerator, overflow) :=
      safeMul vals.totalVotingPower (wrapInt64 trustLevel.numerator.toNat)
    if overflow then .error .overflow
    else
      let votingPowerNeeded := totalVotingPowerMulByNumerator.tdiv (wrapInt64 trustLevel.denominator.toNat)
      verifyCommitWith verifySignature pubKey chainID vals commit votingPowerNeeded
        (fun c => c.blockIDFlag ≠ .commit) (fun _ => true) countAllSignatures false

/-- `VerifyCommitLightTrusting`. -/
def verifyCommitLightTrusting (trustLevel : Fraction) : Except CommitError Unit :=
  verifyCommitLightTrustingInternal verifySignature pubKey chainID vals commit trustLevel false

/-- More than `T * 2 / 3` is more than two thirds of `T`. -/
theorem two_mul_lt_three_mul {T P : Int} (hT : 0 ≤ T) (h : (T * 2).tdiv 3 < P) : 2 * T < 3 * P := by
  rw [Int.tdiv_eq_ediv_of_nonneg (by omega)] at h
  omega

/-- More than `T * num / den` is more than `num / den` of `T`. -/
theorem mul_lt_mul_of_tdiv_lt {T P num den : Int} (hT : 0 ≤ T) (hnum : 0 ≤ num) (hden : 0 < den)
    (h : (T * num).tdiv den < P) : T * num < P * den := by
  rw [Int.tdiv_eq_ediv_of_nonneg (Int.mul_nonneg hT hnum)] at h
  calc T * num < (T * num / den + 1) * den := Int.lt_ediv_add_one_mul_self _ hden
    _ ≤ P * den := Int.mul_le_mul_of_nonneg_right (by omega) hden.le

section
variable (hw : ∀ v ∈ vals.validators, 0 ≤ v.votingPower) (hT : vals.totalVotingPower ≤ maxTotalVotingPower)
include hw hT

/-- Whichever loop `shouldBatchVerify` picks, an accepted commit shows more than `votingPowerNeeded` of
    signed power. -/
theorem verifyCommitWith_signedPower {votingPowerNeeded : Int} {ignoreSig countSig : CommitSig → Bool}
    {countAllSignatures lookUpByIndex : Bool}
    (h : verifyCommitWith verifySignature pubKey chainID vals commit votingPowerNeeded ignoreSig countSig
      countAllSignatures lookUpByIndex = .ok ()) :
    votingPowerNeeded < signedPower verifySignature pubKey chainID vals commit ignoreSig countSig lookUpByIndex := by
  unfold verifyCommitWith at h
  rcases hb : shouldBatchVerify pubKey vals commit with _ | ⟨_ | _⟩
  · simp [hb] at h
  · simp only [hb] at h
    exact verifyCommitSingle_signedPower verifySignature pubKey chainID vals commit votingPowerNeeded ignoreSig
      countSig countAllSignatures lookUpByIndex hw hT h
  · simp only [hb] at h
    exact verifyCommitBatch_signedPower verifySignature pubKey chainID vals commit votingPowerNeeded ignoreSig
      countSig countAllSignatures lookUpByIndex hw hT h

/-- Commit verification counts only distinct, validly signed, eligible signers. On a validator set of
    nonnegative powers of total at most `MaxTotalVotingPower`: a commit `verifyCommitSingle` accepts shows
    more than `votingPowerNeeded` of signed power; one that `VerifyCommit` or `verifyCommitLightInternal`
    accepts shows more than two thirds of the total; and one that `verifyCommitLightTrustingInternal`
    accepts at a trust level whose numerator and denominator fit in int64 shows more than that fraction
    of it. -/
theorem commit_signed_power :
    (∀ votingPowerNeeded ignoreSig countSig countAllSignatures lookUpByIndex,
      verifyCommitSingle verifySignature pubKey chainID vals commit votingPowerNeeded ignoreSig countSig
          countAllSignatures lookUpByIndex = .ok () →
        votingPowerNeeded < signedPower verifySignature pubKey chainID vals commit ignoreSig countSig
          lookUpByIndex) ∧
    (∀ blockID height, verifyCommit verifySignature pubKey chainID vals commit blockID height = .ok () →
      2 * vals.totalVotingPower < 3 * signedPower verifySignature pubKey chainID vals commit
        (fun c => c.blockIDFlag = .absent) (fun c => c.blockIDFlag = .commit) true) ∧
    (∀ blockID height countAllSignatures,
      verifyCommitLightInternal verifySignature pubKey chainID vals commit blockID height countAllSignatures =
          .ok () →
        2 * vals.totalVotingPower < 3 * signedPower verifySignature pubKey chainID vals commit
          (fun c => c.blockIDFlag ≠ .commit) (fun _ => true) true) ∧
    (∀ trustLevel countAllSignatures, (trustLevel.numerator.toNat : Int) ≤ maxInt64 →
      0 < trustLevel.denominator.toNat → (trustLevel.denominator.toNat : Int) ≤ maxInt64 →
      verifyCommitLightTrustingInternal verifySignature pubKey chainID vals commit trustLevel countAllSignatures =
          .ok () →
        vals.totalVotingPower * trustLevel.numerator.toNat < signedPower verifySignature pubKey chainID vals commit
          (fun c => c.blockIDFlag ≠ .commit) (fun _ => true) false * trustLevel.denominator.toNat) := by
  have hT0 := totalVotingPower_nonneg hw
  refine ⟨fun votingPowerNeeded ignoreSig countSig countAllSignatures lookUpByIndex h =>
    verifyCommitSingle_signedPower verifySignature pubKey chainID vals commit votingPowerNeeded ignoreSig countSig
      countAllSignatures lookUpByIndex hw hT h, ?_, ?_, ?_⟩
  · intro blockID height h
    obtain ⟨_, -, h⟩ := except_bind_eq_ok.mp h
    exact two_mul_lt_three_mul hT0 (verifyCommitWith_signedPower verifySignature pubKey chainID vals commit hw hT h)
  · intro blockID height countAllSignatures h
    obtain ⟨_, -, h⟩ := except_bind_eq_ok.mp h
    exact two_mul_lt_three_mul hT0 (verifyCommitWith_signedPower verifySignature pubKey chainID vals commit hw hT h)
  · intro trustLevel countAllSignatures hnum hden₀ hden h
    -- numerator and denominator keep their values as int64, and the product does not overflow
    have hnum' : wrapInt64 trustLevel.numerator.toNat = trustLevel.numerator.toNat :=
      wrapInt64_of_mem (by simp only [minInt64]; omega) hnum
    have hden' : wrapInt64 trustLevel.denominator.toNat = trustLevel.denominator.toNat :=
      wrapInt64_of_mem (by simp only [minInt64]; omega) hden
    have hne : trustLevel.denominator ≠ 0 := fun h0 => by simp [h0] at hden₀
    unfold verifyCommitLightTrustingInternal at h
    rw [if_neg hne, hnum', hden', safeMul_of_nonneg hT0 (by omega)] at h
    split_ifs at h with hover
    · exact mul_lt_mul_of_tdiv_lt hT0 (by omega) (by omega)
        (verifyCommitWith_signedPower verifySignature pubKey chainID vals commit hw hT h)
    · simp at h

end

/-- One validator of power one signs a commit for its block: `verifyCommitSingle` accepts it, and its
    signed power is positive. -/
theorem commit_signed_power_one :
    let vals : ValidatorSet := ⟨[⟨List.replicate 20 0, 1, 0⟩], none⟩
    let commit : Commit := ⟨1, 0, ⟨[], ⟨0, []⟩⟩, [⟨.commit, List.replicate 20 0, 0, [1]⟩]⟩
    verifyCommitSingle (fun _ _ _ => true) (fun _ => some ⟨.ed25519, []⟩) [] vals commit 0 (fun _ => false)
        (fun _ => true) true true = .ok () ∧
      0 < signedPower (fun _ _ _ => true) (fun _ => some ⟨.ed25519, []⟩) [] vals commit (fun _ => false)
        (fun _ => true) true := by
  intro vals commit
  have h : verifyCommitSingle (fun _ _ _ => true) (fun _ => some ⟨.ed25519, []⟩) [] vals commit 0 (fun _ => false)
      (fun _ => true) true true = .ok () := by decide
  exact ⟨h, (commit_signed_power (fun _ _ _ => true) (fun _ => some ⟨.ed25519, []⟩) [] vals commit (by decide)
    (by decide)).1 0 _ _ true true h⟩

/-- A trust level whose denominator does not fit in int64 converts to a negative one, here `-1`, and so
    does the power needed: `VerifyCommitLightTrusting` accepts a commit whose only signature is absent, with
    no signed power at all. No signature is checked, so the keys do not matter. -/
theorem verifyCommitLightTrusting_wrapped_denominator :
    let vals : ValidatorSet := ⟨[⟨[0], 1, 0⟩], none⟩
    let commit : Commit := ⟨1, 0, ⟨[], ⟨0, []⟩⟩, [⟨.absent, [], zeroTime, []⟩]⟩
    let trustLevel : Fraction := ⟨1, 18446744073709551615⟩
    verifyCommitLightTrusting (fun _ _ _ => true) (fun _ => none) [] vals commit trustLevel = .ok () ∧
      signedPower (fun _ _ _ => true) (fun _ => none) [] vals commit (fun c => c.blockIDFlag ≠ .commit)
          (fun _ => true) false * trustLevel.denominator.toNat ≤
        vals.totalVotingPower * trustLevel.numerator.toNat := by
  intro vals commit trustLevel
  constructor
  · -- the only signature is ignored, and a tally of zero passes the needed power of `-1`
    simp [vals, commit, trustLevel, verifyCommitLightTrusting, verifyCommitLightTrustingInternal, safeMul,
      ValidatorSet.totalVotingPower, verifyCommitWith, shouldBatchVerify, batchVerifyThreshold, verifyCommitSingle,
      singleLoop, wrapInt64, maxInt64]
  · simp [vals, commit, trustLevel, signedPower, signedBy, Tally.tally, ValidatorSet.totalVotingPower]

/-- A set of an ed25519 proposer and a secp256k1 validator, both of power one, and a valid commit both
    signed. `verifyCommitSingle` accepts it; the batch verifier, created for the proposer's ed25519 key,
    refuses the secp256k1 key, and `VerifyCommit` returns that error with no fallback to single
    verification. -/
theorem verifyCommit_mixed_key_types :
    let vals : ValidatorSet :=
      ⟨[⟨List.replicate 20 0, 1, 1⟩, ⟨List.replicate 20 1, 1, 0⟩], some (.member (List.replicate 20 0))⟩
    let pubKey : Validator → Option PubKey := fun v =>
      if v.address = List.replicate 20 0 then some ⟨.ed25519, List.replicate 32 0⟩
      else some ⟨.secp256k1, List.replicate 33 2⟩
    let commit : Commit :=
      ⟨1, 0, ⟨List.replicate 32 7, ⟨1, List.replicate 32 8⟩⟩,
        [⟨.commit, List.replicate 20 0, 0, List.replicate 64 5⟩, ⟨.commit, List.replicate 20 1, 0, List.replicate 64 5⟩]⟩
    commit.validateBasic = .ok () ∧
      verifyCommitSingle (fun _ _ _ => true) pubKey [] vals commit 1 (fun c => c.blockIDFlag = .absent)
        (fun c => c.blockIDFlag = .commit) true true = .ok () ∧
      verifyCommitBatch (fun _ _ _ => true) pubKey [] vals commit 1 (fun c => c.blockIDFlag = .absent)
        (fun c => c.blockIDFlag = .commit) true true = .error (.batchAdd .wrongKeyType) ∧
      verifyCommit (fun _ _ _ => true) pubKey [] vals commit commit.blockID 1 = .error (.batchAdd .wrongKeyType) := by
  decide

end

end CometBFT
