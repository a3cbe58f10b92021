import CometBFT.Types.Validation

/-! Block time (`internal/state/state.go`, `types/time/time.go`). `MedianTime` weights the timestamp of
    each signature of a commit that is not absent by the power of the validator its address names, and
    `WeightedMedian` walks the times in increasing order until the weights reach half of their total.

    The half is rounded down and the walk stops at the first time whose weight reaches what is left of
    it. With four validators of power one, one of them absent, a faulty validator that signs with the
    earliest time sets the block time below every honest one, on a commit `VerifyCommit` accepts. -/

namespace CometBFT

/-- `WeightedTime`. -/
structure WeightedTime where
  time : Int
  weight : Int
  deriving Repr, DecidableEq

/-- The order `WeightedMedian` sorts by: by time, nil entries last. -/
def timeLE : Option WeightedTime → Option WeightedTime → Bool
  | _, none => true
  | none, some _ => false
  | some a, some b => a.time ≤ b.time

/-- The loop of `WeightedMedian` over the sorted entries: the first time whose weight reaches what is
    left of `median`, or the zero time when none does. -/
def medianWalk : Int → List (Option WeightedTime) → Int
  | _, [] => zeroTime
  | median, none :: rest => medianWalk median rest
  | median, some weightedTime :: rest =>
    if median ≤ weightedTime.weight then weightedTime.time
    else medianWalk (median - weightedTime.weight) rest

/-- `WeightedMedian`. `sort.Slice` is not stable, but entries of equal time give the same result in any
    order, so an insertion sort stands for it. -/
def weightedMedian (weightedTimes : List (Option WeightedTime)) (totalVotingPower : Int) : Int :=
  medianWalk (totalVotingPower.tdiv 2) (weightedTimes.insertionSort fun a b => timeLE a b = true)

/-- The entry `MedianTime` makes for a signature: nil when the signature is absent or its address names no
    validator of the set. -/
def weightedTimeOf (validators : ValidatorSet) (commitSig : CommitSig) : Option WeightedTime :=
  if commitSig.blockIDFlag = .absent then none
  else (validators.getByAddress commitSig.validatorAddress).map fun validator =>
    ⟨commitSig.timestamp, validator.votingPower⟩

/-- `MedianTime`: the total is the power of the entries made, added as int64. -/
def medianTime (commit : Commit) (validators : ValidatorSet) : Int :=
  let weightedTimes := commit.signatures.map (weightedTimeOf validators)
  let totalVotingPower := weightedTimes.foldl (fun total weightedTime =>
    match weightedTime with
    | none => total
    | some weightedTime => wrapInt64 (total + weightedTime.weight)) 0
  weightedMedian weightedTimes totalVotingPower

/-- Four validators of power one; the first is faulty (`3 * 1 < 4`) and signs with time `0`, two honest
    ones sign with times `10` and `20`, and the last is absent. `VerifyCommit` accepts the commit, and its
    median time is `0`, below both honest times: half of the weight `3` rounds down to `1`, which the
    earliest entry alone reaches. -/
theorem medianTime_below_honest :
    let vals : ValidatorSet :=
      ⟨[⟨List.replicate 20 0, 1, 0⟩, ⟨List.replicate 20 1, 1, 0⟩, ⟨List.replicate 20 2, 1, 0⟩,
        ⟨List.replicate 20 3, 1, 0⟩], none⟩
    let commit : Commit :=
      ⟨1, 0, ⟨List.replicate 32 7, ⟨1, List.replicate 32 8⟩⟩,
        [⟨.commit, List.replicate 20 0, 0, List.replicate 64 5⟩, ⟨.commit, List.replicate 20 1, 10, List.replicate 64 5⟩,
          ⟨.commit, List.replicate 20 2, 20, List.replicate 64 5⟩, ⟨.absent, [], zeroTime, []⟩]⟩
    verifyCommit (fun _ _ _ => true) (fun _ => some ⟨.ed25519, List.replicate 32 0⟩) [] vals commit commit.blockID 1 =
        .ok () ∧
      3 * powerAt vals 0 < vals.totalVotingPower ∧
      ∀ i ∈ [1, 2], ∀ cs ∈ commit.signatures[i]?, medianTime commit vals < cs.timestamp := by
  decide

end CometBFT
