import CometBFT.Types.Validator

/-! Validator sets (`types/validator_set.go`): the proposer rotation `IncrementProposerPriority`
    with its rescaling and centring, and the change sets of `UpdateWithChangeSet` and
    `NewValidatorSet`.

    A Go method that mutates the set returns the new set. `none` is a panic of the code; an error it
    returns is a `ChangeSetError`. The cached `totalVotingPower` is the sum of the powers: the code
    recomputes it (`updateTotalVotingPower`) before each read that follows a change of the list. -/

namespace CometBFT

/-- What the pointer `ValidatorSet.Proposer` points at. A rotation points it at a validator of the list,
    whose priority then moves with the list's (`member`, by address). When an update replaces that
    validator or a removal drops it, the pointer keeps the validator as it was, outside the list
    (`detached`). -/
inductive Proposer
  | member (address : Address)
  | detached (val : Validator)
  deriving Repr, DecidableEq

/-- The address of the validator the proposer points at. -/
def Proposer.address : Proposer → Address
  | .member address => address
  | .detached val => val.address

/-- `ValidatorSet`: the validators and the proposer of the last rotation. -/
structure ValidatorSet where
  validators : List Validator
  proposer : Option Proposer
  deriving Repr, DecidableEq

/-- The errors `updateWithChangeSet` returns, with the value each message prints. A panic of the
    code on the same path is `panic`. -/
inductive ChangeSetError
  | duplicateEntry (address : Address)
  | negativeVotingPower (votingPower : Int)
  | votingPowerTooHigh (votingPower : Int)
  | cannotProcessZeroPower
  | emptySet
  | failedToFind (address : Address)
  | totalVotingPowerOverflow
  | panic
  deriving Repr, DecidableEq

/-- The panic of a step of `updateWithChangeSet`. -/
def orPanic {α : Type} : Option α → Except ChangeSetError α
  | some a => .ok a
  | none => .error .panic

namespace ValidatorSet

/-- `IsNilOrEmpty`. -/
def isNilOrEmpty (vals : ValidatorSet) : Bool := vals.validators.isEmpty

/-- `TotalVotingPower`. -/
def totalVotingPower (vals : ValidatorSet) : Int := (vals.validators.map (·.votingPower)).sum

/-- Every validator's priority replaced by `f` of the validator. -/
def mapPriorities (vals : ValidatorSet) (f : Validator → Int) : ValidatorSet :=
  { vals with validators := vals.validators.map fun val => { val with proposerPriority := f val } }

/-! ### The rotation -/

/-- `computeMaxMinPriorityDiff`: `max - min` of the priorities, in int64. -/
def computeMaxMinPriorityDiff (vals : ValidatorSet) : Option Int :=
  if vals.isNilOrEmpty then none
  else
    let max := vals.validators.foldl (fun m v => if v.proposerPriority > m then v.proposerPriority else m) minInt64
    let min := vals.validators.foldl (fun m v => if v.proposerPriority < m then v.proposerPriority else m) maxInt64
    let diff := wrapInt64 (max - min)
    if diff < 0 then some (wrapInt64 (-1 * diff)) else some diff

/-- `RescalePriorities`: when the priorities are more than `diffMax` apart, divide each by
    `ceil(diff / diffMax)`. Go's `/` truncates; a zero ratio is a division panic. -/
def rescalePriorities (vals : ValidatorSet) (diffMax : Int) : Option ValidatorSet :=
  if vals.isNilOrEmpty then none
  else if diffMax ≤ 0 then some vals
  else do
    let diff ← vals.computeMaxMinPriorityDiff
    let ratio := (wrapInt64 (diff + diffMax - 1)).tdiv diffMax
    if diff > diffMax then
      if ratio = 0 then none
      else some (vals.mapPriorities fun val => wrapInt64 (val.proposerPriority.tdiv ratio))
    else some vals

/-- `computeAvgProposerPriority`: the sum of the priorities divided by their number as `big.Int`s,
    whose `Div` is Euclidean; a panic when it is not an int64. -/
def computeAvgProposerPriority (vals : ValidatorSet) : Option Int :=
  let n := (vals.validators.length : Int)
  let sum := (vals.validators.map (·.proposerPriority)).sum
  if n = 0 then none
  else
    let avg := sum / n
    if minInt64 ≤ avg ∧ avg ≤ maxInt64 then some avg else none

/-- `shiftByAvgProposerPriority`: centre the priorities on their average. -/
def shiftByAvgProposerPriority (vals : ValidatorSet) : Option ValidatorSet :=
  if vals.isNilOrEmpty then none
  else do
    let avg ← vals.computeAvgProposerPriority
    return vals.mapPriorities fun val => safeSubClip val.proposerPriority avg

/-- `getValWithMostPriority`: `CompareProposerPriority` folded over the list from a nil result. The
    outer `none` is a panic; the inner one the nil result on an empty list. -/
def getValWithMostPriority (vals : ValidatorSet) : Option (Option Validator) :=
  vals.validators.foldlM (fun res val => some <$> Validator.compareProposerPriority res val) none

/-- `incrementProposerPriority`: one election. Every priority grows by the validator's power, and the
    validator with the most priority, the one `mostest` points to, loses the total power. -/
def incrementProposerPriority (vals : ValidatorSet) : Option (ValidatorSet × Validator) := do
  let vals := vals.mapPriorities fun val => safeAddClip val.proposerPriority val.votingPower
  let some mostest ← vals.getValWithMostPriority | none
  let prio := safeSubClip mostest.proposerPriority vals.totalVotingPower
  let vals := vals.mapPriorities fun val => if val.address = mostest.address then prio else val.proposerPriority
  return (vals, { mostest with proposerPriority := prio })

/-- The loop of `IncrementProposerPriority`: `times` elections, keeping the last proposer. -/
def incrementLoop : Nat → ValidatorSet → Option Validator → Option (ValidatorSet × Option Validator)
  | 0, vals, proposer => some (vals, proposer)
  | times + 1, vals, _ => do
    let (vals, proposer) ← vals.incrementProposerPriority
    incrementLoop times vals (some proposer)

/-- `IncrementProposerPriority(times)`: rescale the priorities to a window of twice the total power,
    centre them, and run `times` elections. It panics on an empty set and on `times ≤ 0`. -/
def IncrementProposerPriority (vals : ValidatorSet) (times : Int) : Option ValidatorSet :=
  if vals.isNilOrEmpty then none
  else if times ≤ 0 then none
  else do
    let diffMax := priorityWindowSizeFactor * vals.totalVotingPower
    let vals ← vals.rescalePriorities diffMax
    let vals ← vals.shiftByAvgProposerPriority
    let (vals, proposer) ← incrementLoop times.toNat vals none
    -- `mostest` is a pointer into the list
    return { vals with proposer := proposer.map fun p => .member p.address }

/-- `GetByAddress`: the first validator with the address. -/
def getByAddress (vals : ValidatorSet) (address : Address) : Option Validator :=
  vals.validators.find? (·.address = address)

/-- `GetByIndex`: the validator at `index`, or nil outside the list. -/
def getByIndex (vals : ValidatorSet) (index : Int) : Option Validator :=
  if index < 0 ∨ index ≥ vals.validators.length then none else vals.validators[index.toNat]?

/-- `HasAddress`. -/
def hasAddress (vals : ValidatorSet) (address : Address) : Bool :=
  vals.validators.any (·.address = address)

/-- `findProposer`: the validator with the most priority. -/
def findProposer (vals : ValidatorSet) : Option (Option Validator) :=
  vals.validators.foldlM (fun proposer val =>
    match proposer with
    | some p => if val.address ≠ p.address then some <$> Validator.compareProposerPriority proposer val
                else some proposer
    | none => some <$> Validator.compareProposerPriority proposer val) none

/-- `GetProposer`: nil on an empty set, else the validator the stored proposer points at or, when there is
    none, the one `findProposer` finds. -/
def getProposer (vals : ValidatorSet) : Option (Option Validator) :=
  if vals.validators = [] then some none
  else match vals.proposer with
    | some (.member address) => some (vals.getByAddress address)
    | some (.detached val) => some (some val)
    | none => vals.findProposer

/-- The proposer once the validators at the addresses `gone` have left the list: a pointer to one of
    them now points at it as it was. -/
def detach (vals : ValidatorSet) (gone : List Address) : Proposer → Proposer
  | .member address =>
    if address ∈ gone then ((vals.getByAddress address).map .detached).getD (.member address)
    else .member address
  | .detached val => .detached val

/-! ### Change sets -/

/-- `ValidatorsByAddress`: ascending addresses. -/
def byAddress (a b : Validator) : Bool := compare a.address b.address != .gt

/-- `ValidatorsByVotingPower`: descending powers, then ascending addresses. -/
def byVotingPower (a b : Validator) : Bool :=
  if a.votingPower = b.votingPower then compare a.address b.address != .gt
  else a.votingPower > b.votingPower

/-- The scan of `processChanges` over the sorted changes; `prevAddr` starts as the nil address. -/
def processChangesLoop : List Validator → Address → List Validator → List Validator →
    Except ChangeSetError (List Validator × List Validator)
  | [], _, updates, removals => .ok (updates, removals)
  | valUpdate :: changes, prevAddr, updates, removals =>
    if valUpdate.address = prevAddr then .error (.duplicateEntry valUpdate.address)
    else if valUpdate.votingPower < 0 then .error (.negativeVotingPower valUpdate.votingPower)
    else if valUpdate.votingPower > maxTotalVotingPower then .error (.votingPowerTooHigh valUpdate.votingPower)
    else if valUpdate.votingPower = 0 then processChangesLoop changes valUpdate.address updates (removals ++ [valUpdate])
    else processChangesLoop changes valUpdate.address (updates ++ [valUpdate]) removals

/-- `processChanges`: sort the changes by address, reject duplicates and out-of-range powers, and split
    them into updates and removals. -/
def processChanges (origChanges : List Validator) : Except ChangeSetError (List Validator × List Validator) :=
  processChangesLoop (origChanges.insertionSort fun a b => byAddress a b) [] [] []

/-- The power an update adds to the set. -/
def delta (update : Validator) (vals : ValidatorSet) : Int :=
  match vals.getByAddress update.address with
  | some val => update.votingPower - val.votingPower
  | none => update.votingPower

/-- The running total of `verifyUpdates`, checked after each update. -/
def verifyUpdatesLoop (vals : ValidatorSet) (removedPower : Int) : List Validator → Int → Except ChangeSetError Int
  | [], tvpAfterRemovals => .ok (tvpAfterRemovals + removedPower)
  | upd :: updates, tvpAfterRemovals =>
    let tvp := tvpAfterRemovals + delta upd vals
    if tvp > maxTotalVotingPower then .error .totalVotingPowerOverflow
    else verifyUpdatesLoop vals removedPower updates tvp

/-- `verifyUpdates`: the total power after the updates and before the removals, or an overflow of
    `MaxTotalVotingPower` along the updates sorted by the power they add. -/
def verifyUpdates (updates : List Validator) (vals : ValidatorSet) (removedPower : Int) : Except ChangeSetError Int :=
  verifyUpdatesLoop vals removedPower (updates.insertionSort fun a b => delta a vals ≤ delta b vals)
    (vals.totalVotingPower - removedPower)

/-- `numNewValidators`. -/
def numNewValidators (updates : List Validator) (vals : ValidatorSet) : Nat :=
  (updates.filter fun valUpdate => !vals.hasAddress valUpdate.address).length

/-- `computeNewPriorities`: a new validator starts at `-1.125` times the updated total power, an updated
    one keeps its priority. -/
def computeNewPriorities (updates : List Validator) (vals : ValidatorSet) (updatedTotalVotingPower : Int) :
    List Validator :=
  updates.map fun valUpdate =>
    match vals.getByAddress valUpdate.address with
    | none => { valUpdate with proposerPriority := -(updatedTotalVotingPower + (updatedTotalVotingPower >>> 3)) }
    | some val => { valUpdate with proposerPriority := val.proposerPriority }

/-- The merge loop of `applyUpdates` while `e` is the first validator left: the updates before it are
    taken, and `merge` is the merge of the validators after it. -/
def applyUpdatesLoop (e : Validator) (existing : List Validator) (merge : List Validator → List Validator) :
    List Validator → List Validator
  | [] => e :: existing
  | u :: updates =>
    if compare e.address u.address = .lt then e :: merge (u :: updates)
    else if e.address = u.address then u :: merge updates
    else u :: applyUpdatesLoop e existing merge updates

/-- The merge of `applyUpdates`: on equal addresses the update replaces the validator. -/
def applyUpdatesMerge : List Validator → List Validator → List Validator
  | [], updates => updates
  | e :: existing, updates => applyUpdatesLoop e existing (applyUpdatesMerge existing) updates

/-- `applyUpdates`: sort the set by address and merge the updates in. An update takes the place of the
    validator at its address. -/
def applyUpdates (vals : ValidatorSet) (updates : List Validator) : ValidatorSet :=
  { validators := applyUpdatesMerge (vals.validators.insertionSort fun a b => byAddress a b) updates
    proposer := vals.proposer.map (vals.detach (updates.map (·.address))) }

/-- The scan of `applyRemovals`; running out of validators before the removals is an index panic. -/
def applyRemovalsLoop : List Validator → List Validator → Option (List Validator)
  | existing, [] => some existing
  | [], _ :: _ => none
  | e :: existing, d :: deletes =>
    if e.address = d.address then applyRemovalsLoop existing deletes
    else (applyRemovalsLoop existing (d :: deletes)).map (e :: ·)

/-- `applyRemovals`. -/
def applyRemovals (vals : ValidatorSet) (deletes : List Validator) : Option ValidatorSet :=
  (applyRemovalsLoop vals.validators deletes).map fun validators =>
    { validators := validators, proposer := vals.proposer.map (vals.detach (deletes.map (·.address))) }

/-- The scan of `verifyRemovals`. -/
def verifyRemovalsLoop (vals : ValidatorSet) : List Validator → Int → Except ChangeSetError Int
  | [], removed => .ok removed
  | valUpdate :: deletes, removed =>
    match vals.getByAddress valUpdate.address with
    | none => .error (.failedToFind valUpdate.address)
    | some val => verifyRemovalsLoop vals deletes (removed + val.votingPower)

/-- `verifyRemovals`: the power the removals take away; every removal must be in the set. -/
def verifyRemovals (deletes : List Validator) (vals : ValidatorSet) : Except ChangeSetError Int := do
  let removed ← verifyRemovalsLoop vals deletes 0
  if deletes.length > vals.validators.length then throw .panic
  return removed

/-- `updateTotalVotingPower`: a panic when the clipped running sum passes `MaxTotalVotingPower`. -/
def updateTotalVotingPower (vals : ValidatorSet) : Option ValidatorSet :=
  let sums := (vals.validators.map (·.votingPower)).scanl safeAddClip 0
  if sums.any (· > maxTotalVotingPower) then none else some vals

/-- `updateWithChangeSet`: apply the change set, or return an error and leave the set as it is. -/
def updateWithChangeSet (vals : ValidatorSet) (changes : List Validator) (allowDeletes : Bool) :
    Except ChangeSetError ValidatorSet :=
  if changes = [] then .ok vals
  else do
    let (updates, deletes) ← processChanges changes
    if !allowDeletes ∧ deletes ≠ [] then throw .cannotProcessZeroPower
    if numNewValidators updates vals = 0 ∧ vals.validators.length = deletes.length then throw .emptySet
    let removedVotingPower ← verifyRemovals deletes vals
    let tvpAfterUpdatesBeforeRemovals ← verifyUpdates updates vals removedVotingPower
    let updates := computeNewPriorities updates vals tvpAfterUpdatesBeforeRemovals
    let vals := vals.applyUpdates updates
    let vals ← orPanic (vals.applyRemovals deletes)
    let vals ← orPanic vals.updateTotalVotingPower
    let vals ← orPanic (vals.rescalePriorities (priorityWindowSizeFactor * vals.totalVotingPower))
    let vals ← orPanic vals.shiftByAvgProposerPriority
    return { vals with validators := vals.validators.insertionSort fun a b => byVotingPower a b }

/-- `UpdateWithChangeSet`. -/
def UpdateWithChangeSet (vals : ValidatorSet) (changes : List Validator) : Except ChangeSetError ValidatorSet :=
  vals.updateWithChangeSet changes true

end ValidatorSet

/-- `NewValidatorSet`: the set of `valz`, rotated once; it panics on an invalid list. -/
def newValidatorSet (valz : List Validator) : Option ValidatorSet :=
  match (ValidatorSet.mk [] none).updateWithChangeSet valz false with
  | .error _ => none
  | .ok vals => if valz.length > 0 then vals.IncrementProposerPriority 1 else some vals

end CometBFT
