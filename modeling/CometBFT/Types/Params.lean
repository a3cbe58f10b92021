import CometBFT.Types.Validator

/-! Consensus parameters (`types/params.go`) and how `updateState` (`internal/state/execution.go`) moves
    them from one height to the next.

    The int64 fields are `Int`: the code only compares them, and adds one to a block height. The
    protobuf update `cmtproto.ConsensusParams` has a pointer to each group of parameters, whose fields
    are those of the Go struct; it is `ConsensusParamsProto`, with an `Option` of the same structure
    per group. -/

namespace CometBFT

/-- `MaxBlockSizeBytes`, 100MB. -/
def maxBlockSizeBytes : Int := 104857600

/-- The keys of `ABCIPubKeyTypesToNames`: `ed25519.KeyType` and `secp256k1.KeyType`. -/
def abciPubKeyTypes : List String := ["ed25519", "secp256k1"]

structure BlockParams where
  maxBytes : Int
  maxGas : Int
  deriving DecidableEq, Repr

structure EvidenceParams where
  maxAgeNumBlocks : Int
  /-- A `time.Duration`, in nanoseconds. -/
  maxAgeDuration : Int
  maxBytes : Int
  deriving DecidableEq, Repr

structure ValidatorParams where
  pubKeyTypes : List String
  deriving DecidableEq, Repr

structure VersionParams where
  app : UInt64
  deriving DecidableEq, Repr

structure ABCIParams where
  voteExtensionsEnableHeight : Int
  deriving DecidableEq, Repr

structure ConsensusParams where
  block : BlockParams
  evidence : EvidenceParams
  validator : ValidatorParams
  version : VersionParams
  abci : ABCIParams
  deriving DecidableEq, Repr

/-- `cmtproto.ConsensusParams`: the groups an application changes at the end of a block. -/
structure ConsensusParamsProto where
  block : Option BlockParams
  evidence : Option EvidenceParams
  validator : Option ValidatorParams
  version : Option VersionParams
  abci : Option ABCIParams
  deriving DecidableEq, Repr

namespace ABCIParams

/-- `VoteExtensionsEnabled`; `none` is the panic on a height below one. -/
def voteExtensionsEnabled (a : ABCIParams) (h : Int) : Option Bool :=
  if h < 1 then none
  else if a.voteExtensionsEnableHeight = 0 then some false
  else some (decide (a.voteExtensionsEnableHeight ≤ h))

theorem voteExtensionsEnabled_eq_true {a : ABCIParams} {h : Int} :
    a.voteExtensionsEnabled h = some true ↔
      1 ≤ h ∧ a.voteExtensionsEnableHeight ≠ 0 ∧ a.voteExtensionsEnableHeight ≤ h := by
  unfold voteExtensionsEnabled
  split_ifs with h₁ h₂
  · simp only [false_iff]
    omega
  · simp [h₂]
  · simp only [Option.some.injEq, decide_eq_true_eq]
    omega

end ABCIParams

/-- `DefaultConsensusParams`. -/
def defaultConsensusParams : ConsensusParams where
  block := { maxBytes := 4194304, maxGas := 10000000 }
  evidence := { maxAgeNumBlocks := 100000, maxAgeDuration := 48 * 3600 * 1000000000, maxBytes := 1048576 }
  validator := { pubKeyTypes := ["ed25519"] }
  version := { app := 0 }
  abci := { voteExtensionsEnableHeight := 0 }

/-- The errors of `ValidateBasic`, one per check, with the values its message prints. -/
inductive ValidateBasicError
  /-- "block.MaxBytes cannot be 0" -/
  | blockMaxBytesZero
  /-- "block.MaxBytes must be -1 or greater than 0. Got %d" -/
  | blockMaxBytesTooSmall (maxBytes : Int)
  /-- "block.MaxBytes is too big. %d > %d" -/
  | blockMaxBytesTooBig (maxBytes bound : Int)
  /-- "block.MaxGas must be greater or equal to -1. Got %d" -/
  | blockMaxGasTooSmall (maxGas : Int)
  /-- "evidence.MaxAgeNumBlocks must be greater than 0. Got %d" -/
  | evidenceMaxAgeNumBlocksNotPositive (maxAgeNumBlocks : Int)
  /-- "evidence.MaxAgeDuration must be grater than 0 if provided, Got %v" -/
  | evidenceMaxAgeDurationNotPositive (maxAgeDuration : Int)
  /-- "evidence.MaxBytesEvidence is greater than upper bound, %d > %d", with `block.MaxBytes` printed as the
      bound even where it is -1 -/
  | evidenceMaxBytesTooBig (maxBytes blockMaxBytes : Int)
  /-- "evidence.MaxBytes must be non negative. Got: %d" -/
  | evidenceMaxBytesNegative (maxBytes : Int)
  /-- "ABCI.VoteExtensionsEnableHeight cannot be negative. Got: %d" -/
  | voteExtensionsEnableHeightNegative (height : Int)
  /-- "len(Validator.PubKeyTypes) must be greater than 0" -/
  | noPubKeyTypes
  /-- "params.Validator.PubKeyTypes[%d], %s, is an unknown pubkey type" -/
  | unknownPubKeyType (i : Nat) (keyType : String)
  deriving DecidableEq, Repr

/-- The errors of `ValidateUpdate`, by the row of its table that rejects. -/
inductive ValidateUpdateError
  /-- Row 2: "VoteExtensionsEnableHeight must be positive" -/
  | enableHeightNegative
  /-- Row 5: "vote extensions cannot be disabled once enabled" -/
  | cannotDisable (enableHeight height : Int)
  /-- Row 7: "vote extensions cannot be updated to a past or current height" -/
  | pastHeight (enableHeight height : Int)
  /-- Row 9: "vote extensions cannot be modified once enabled" -/
  | cannotModify (enableHeight height : Int)
  deriving DecidableEq, Repr

/-- The changes of the enable height from `old` to `new` that `ValidateUpdate` accepts at height `h`:
    `new` is not negative, and it is `old`, or neither height has taken effect by `h` (zero, or later
    than `h`). -/
def EnableHeightChangeOK (old new h : Int) : Prop :=
  0 ≤ new ∧ (new = old ∨ (old ≤ 0 ∨ h < old) ∧ (new = 0 ∨ h < new))

instance (old new h : Int) : Decidable (EnableHeightChangeOK old new h) :=
  inferInstanceAs (Decidable (_ ∧ _))

/-- An enable height that has taken effect by `h` is kept. -/
theorem EnableHeightChangeOK.eq_of_enabled {old new h : Int} (hok : EnableHeightChangeOK old new h)
    (hpos : 0 < old) (hle : old ≤ h) : new = old := by
  obtain ⟨-, heq | ⟨hold, -⟩⟩ := hok
  · exact heq
  · omega

/-- A change to another height that is not zero is to a height after `h`. -/
theorem EnableHeightChangeOK.lt_of_ne {old new h : Int} (hok : EnableHeightChangeOK old new h)
    (hne : new ≠ old) (hnz : new ≠ 0) : h < new := by
  obtain ⟨-, heq | ⟨-, hnew⟩⟩ := hok
  · exact absurd heq hne
  · omega

theorem except_throw_eq_ok {ε α : Type} {e : ε} {a : α} : (throw e : Except ε α) = .ok a ↔ False := by
  simp [throw, throwThe, MonadExceptOf.throw]

theorem except_pure_eq_ok {ε α : Type} {a b : α} : (pure a : Except ε α) = .ok b ↔ a = b := by
  simp [pure, Except.pure]

/-- A check that throws passes when its condition is false and what follows passes. -/
theorem except_ite_throw_eq_ok {ε α : Type} {c : Prop} [Decidable c] {e : ε} {x : Except ε α} {a : α} :
    (if c then throw e else x) = .ok a ↔ ¬c ∧ x = .ok a := by
  by_cases hc : c
  · simp [hc, except_throw_eq_ok]
  · simp [hc]

namespace ConsensusParams

/-- The loop of `ValidateBasic` over `Validator.PubKeyTypes` from index `i`: the first key type that
    `ABCIPubKeyTypesToNames` does not know, with its index. -/
def checkPubKeyTypes (i : Nat) : List String → Except ValidateBasicError Unit
  | [] => pure ()
  | keyType :: rest =>
    if keyType ∈ abciPubKeyTypes then checkPubKeyTypes (i + 1) rest else throw (.unknownPubKeyType i keyType)

theorem checkPubKeyTypes_eq_ok {i : Nat} {pubKeyTypes : List String} :
    checkPubKeyTypes i pubKeyTypes = .ok () ↔ ∀ k ∈ pubKeyTypes, k ∈ abciPubKeyTypes := by
  induction pubKeyTypes generalizing i with
  | nil => simp only [checkPubKeyTypes, List.not_mem_nil, false_imp_iff, imp_true_iff, iff_true]; rfl
  | cons keyType rest ih =>
    unfold checkPubKeyTypes
    split_ifs with hk
    · simp [ih, hk]
    · simp [hk]

/-- `ValidateBasic`: each check returns its error, in the order of the source. -/
def validateBasic (params : ConsensusParams) : Except ValidateBasicError Unit :=
  if params.block.maxBytes = 0 then throw .blockMaxBytesZero
  else if params.block.maxBytes < -1 then throw (.blockMaxBytesTooSmall params.block.maxBytes)
  else if params.block.maxBytes > maxBlockSizeBytes then
    throw (.blockMaxBytesTooBig params.block.maxBytes maxBlockSizeBytes)
  else if params.block.maxGas < -1 then throw (.blockMaxGasTooSmall params.block.maxGas)
  else if params.evidence.maxAgeNumBlocks ≤ 0 then
    throw (.evidenceMaxAgeNumBlocksNotPositive params.evidence.maxAgeNumBlocks)
  else if params.evidence.maxAgeDuration ≤ 0 then
    throw (.evidenceMaxAgeDurationNotPositive params.evidence.maxAgeDuration)
  else
    let maxBytes := if params.block.maxBytes = -1 then maxBlockSizeBytes else params.block.maxBytes
    if params.evidence.maxBytes > maxBytes then
      throw (.evidenceMaxBytesTooBig params.evidence.maxBytes params.block.maxBytes)
    else if params.evidence.maxBytes < 0 then throw (.evidenceMaxBytesNegative params.evidence.maxBytes)
    else if params.abci.voteExtensionsEnableHeight < 0 then
      throw (.voteExtensionsEnableHeightNegative params.abci.voteExtensionsEnableHeight)
    else if params.validator.pubKeyTypes.length = 0 then throw .noPubKeyTypes
    else checkPubKeyTypes 0 params.validator.pubKeyTypes

/-- The parameters that `ValidateBasic` accepts, one field per check. -/
structure Valid (params : ConsensusParams) : Prop where
  maxBytes_ne_zero : params.block.maxBytes ≠ 0
  maxBytes_ge : -1 ≤ params.block.maxBytes
  maxBytes_le : params.block.maxBytes ≤ maxBlockSizeBytes
  maxGas_ge : -1 ≤ params.block.maxGas
  maxAgeNumBlocks_pos : 0 < params.evidence.maxAgeNumBlocks
  maxAgeDuration_pos : 0 < params.evidence.maxAgeDuration
  evidenceMaxBytes_le :
    params.evidence.maxBytes ≤ if params.block.maxBytes = -1 then maxBlockSizeBytes else params.block.maxBytes
  evidenceMaxBytes_nonneg : 0 ≤ params.evidence.maxBytes
  enableHeight_nonneg : 0 ≤ params.abci.voteExtensionsEnableHeight
  pubKeyTypes_ne_nil : params.validator.pubKeyTypes ≠ []
  pubKeyTypes_known : ∀ k ∈ params.validator.pubKeyTypes, k ∈ abciPubKeyTypes

theorem validateBasic_eq_ok {params : ConsensusParams} : params.validateBasic = .ok () ↔ params.Valid := by
  unfold validateBasic
  dsimp only
  -- each check passes when its condition is false, and the last one is the loop over the key types
  simp only [except_ite_throw_eq_ok, checkPubKeyTypes_eq_ok, not_lt, not_le, List.length_eq_zero_iff]
  constructor
  · rintro ⟨h₁, h₂, h₃, h₄, h₅, h₆, h₇, h₈, h₉, h₁₀, hknown⟩
    exact ⟨h₁, h₂, h₃, h₄, h₅, h₆, h₇, h₈, h₉, h₁₀, hknown⟩
  · intro hv
    exact ⟨hv.maxBytes_ne_zero, hv.maxBytes_ge, hv.maxBytes_le, hv.maxGas_ge, hv.maxAgeNumBlocks_pos,
      hv.maxAgeDuration_pos, hv.evidenceMaxBytes_le, hv.evidenceMaxBytes_nonneg, hv.enableHeight_nonneg,
      hv.pubKeyTypes_ne_nil, hv.pubKeyTypes_known⟩

theorem defaultConsensusParams_validateBasic : defaultConsensusParams.validateBasic = .ok () := rfl

/-- `ValidateUpdate`: whether the enable height of vote extensions may change from the one of `params`
    to the one of `updated`, decided at height `h`. The rows are those of the table in the source. -/
def validateUpdate (params : ConsensusParams) (updated : Option ConsensusParamsProto) (h : Int) :
    Except ValidateUpdateError Unit :=
  match updated with
  | none | some { abci := none, .. } => pure ()
  | some { abci := some abci, .. } =>
    let old := params.abci.voteExtensionsEnableHeight
    let new := abci.voteExtensionsEnableHeight
    if new < 0 then throw .enableHeightNegative
    else if old ≤ 0 ∧ new = 0 then pure ()
    else if old = new then pure ()
    else if 0 < old ∧ new = 0 then
      if old ≤ h then throw (.cannotDisable old h) else pure ()
    else if new ≤ h then throw (.pastHeight new h)
    else if old ≤ 0 then pure ()
    else if old ≤ h then throw (.cannotModify old h)
    else pure ()

/-- The ten rows of `ValidateUpdate` accept exactly the changes of `EnableHeightChangeOK`. -/
theorem validateUpdate_eq_ok {params : ConsensusParams} {updated : Option ConsensusParamsProto} {h : Int} :
    params.validateUpdate updated h = .ok () ↔
      ∀ u ∈ updated, ∀ abci ∈ u.abci,
        EnableHeightChangeOK params.abci.voteExtensionsEnableHeight abci.voteExtensionsEnableHeight h := by
  rcases updated with _ | ⟨_, _, _, _, _ | abci⟩
  · simp [validateUpdate, pure, Except.pure]
  · simp [validateUpdate, pure, Except.pure]
  · -- the rows become one formula over the two heights and `h`
    simp only [validateUpdate, Option.mem_def, Option.some.injEq, forall_eq', EnableHeightChangeOK,
      ite_eq_iff, except_throw_eq_ok, except_pure_eq_ok, and_false, and_true, false_or]
    constructor
    · intro hrows
      omega
    · intro hok
      omega

/-- `Update`: each group that `params2` holds replaces the one of `params`, field by field. -/
def update (params : ConsensusParams) : Option ConsensusParamsProto → ConsensusParams
  | none => params
  | some params2 =>
    { block := params2.block.getD params.block
      evidence := params2.evidence.getD params.evidence
      validator := params2.validator.getD params.validator
      version := params2.version.getD params.version
      abci := params2.abci.getD params.abci }

@[simp]
theorem update_none (params : ConsensusParams) : params.update none = params := rfl

@[simp]
theorem update_abci (params : ConsensusParams) (u : Option ConsensusParamsProto) :
    (params.update u).abci = (u.bind (·.abci)).getD params.abci := by
  cases u <;> rfl

end ConsensusParams

/-- The part of the state that `updateState` changes with the consensus parameters. -/
structure ParamsState where
  /-- `Version.Consensus.App`. -/
  appVersion : UInt64
  consensusParams : ConsensusParams
  lastHeightConsensusParamsChanged : Int
  deriving DecidableEq, Repr

/-- The errors with which `updateState` refuses the parameter updates of a block. -/
inductive UpdateParamsError
  /-- "validating new consensus params: %w" -/
  | validatingNewParams (e : ValidateBasicError)
  /-- "updating consensus params: %w" -/
  | updatingParams (e : ValidateUpdateError)
  deriving DecidableEq, Repr

namespace ParamsState

/-- The consensus-parameter part of `updateState` after the block at `height`, whose `FinalizeBlock`
    returned `consensusParamUpdates`. -/
def updateState (state : ParamsState) (height : Int) (consensusParamUpdates : Option ConsensusParamsProto) :
    Except UpdateParamsError ParamsState :=
  match consensusParamUpdates with
  | none => pure state
  | some updates => do
    let nextParams := state.consensusParams.update (some updates)
    (nextParams.validateBasic).mapError .validatingNewParams
    (state.consensusParams.validateUpdate (some updates) height).mapError .updatingParams
    pure { appVersion := nextParams.version.app, consensusParams := nextParams,
           lastHeightConsensusParamsChanged := height + 1 }

/-- `updateState` keeps the parameters of a block without updates; otherwise the updated parameters
    passed `ValidateBasic`, the old ones let the update through `ValidateUpdate` at `height`, and they
    take effect at the next height. -/
theorem updateState_eq_ok {state state' : ParamsState} {height : Int} {u : Option ConsensusParamsProto}
    (hs : state.updateState height u = .ok state') :
    u = none ∧ state' = state ∨
      state'.consensusParams = state.consensusParams.update u ∧
      state'.consensusParams.validateBasic = .ok () ∧
      state.consensusParams.validateUpdate u height = .ok () ∧
      state'.appVersion = state'.consensusParams.version.app ∧
      state'.lastHeightConsensusParamsChanged = height + 1 := by
  cases u with
  | none => exact .inl ⟨rfl, (Except.ok.inj hs).symm⟩
  | some updates =>
    obtain ⟨⟨⟩, hbasic, hs⟩ := except_bind_eq_ok.mp hs
    obtain ⟨⟨⟩, hupdate, hs⟩ := except_bind_eq_ok.mp hs
    cases hs
    exact .inr ⟨rfl, mapError_eq_ok.mp hbasic, mapError_eq_ok.mp hupdate, rfl, rfl⟩

/-- A step keeps the parameters valid. -/
theorem updateState_valid {state state' : ParamsState} {height : Int} {u : Option ConsensusParamsProto}
    (hs : state.updateState height u = .ok state') (hv : state.consensusParams.Valid) :
    state'.consensusParams.Valid := by
  rcases updateState_eq_ok hs with ⟨-, rfl⟩ | ⟨-, hbasic, -⟩
  · exact hv
  · exact ConsensusParams.validateBasic_eq_ok.mp hbasic

/-- A step keeps the enable height, or changes it in a way `ValidateUpdate` accepts at `height`. -/
theorem updateState_enableHeight {state state' : ParamsState} {height : Int} {u : Option ConsensusParamsProto}
    (hs : state.updateState height u = .ok state') :
    state'.consensusParams.abci.voteExtensionsEnableHeight = state.consensusParams.abci.voteExtensionsEnableHeight ∨
      EnableHeightChangeOK state.consensusParams.abci.voteExtensionsEnableHeight
        state'.consensusParams.abci.voteExtensionsEnableHeight height := by
  rcases updateState_eq_ok hs with ⟨-, rfl⟩ | ⟨hparams, -, hupdate, -⟩
  · exact .inl rfl
  · rw [hparams, ConsensusParams.update_abci]
    -- an update without ABCI parameters keeps them
    cases habci : u.bind (·.abci) with
    | none => exact .inl rfl
    | some abci =>
      obtain ⟨updates, hu, hupd⟩ := Option.bind_eq_some_iff.mp habci
      exact .inr (ConsensusParams.validateUpdate_eq_ok.mp hupdate updates hu abci hupd)

/-- The states after the blocks `height`, `height + 1`, … with the updates `us`, or the first error,
    at which the node stops. -/
def updateStates (state : ParamsState) (height : Int) :
    List (Option ConsensusParamsProto) → Except UpdateParamsError (List ParamsState)
  | [] => pure []
  | u :: us => do
    let state' ← state.updateState height u
    let states ← updateStates state' (height + 1) us
    pure (state' :: states)

theorem updateStates_cons_eq_ok {state : ParamsState} {height : Int} {u : Option ConsensusParamsProto}
    {us : List (Option ConsensusParamsProto)} {states : List ParamsState}
    (hrun : updateStates state height (u :: us) = .ok states) :
    ∃ state' states', state.updateState height u = .ok state' ∧
      updateStates state' (height + 1) us = .ok states' ∧ states = state' :: states' := by
  obtain ⟨state', hs, hrun⟩ := except_bind_eq_ok.mp hrun
  obtain ⟨states', hrun, hst⟩ := except_bind_eq_ok.mp hrun
  exact ⟨state', states', hs, hrun, (Except.ok.inj hst).symm⟩

/-- Vote extensions enabled at `height` stay enabled after the block at `height`, with the same enable
    height. -/
theorem updateState_keeps_enabled {state state' : ParamsState} {height : Int} {u : Option ConsensusParamsProto}
    (hs : state.updateState height u = .ok state') (hv : state.consensusParams.Valid)
    (hen : state.consensusParams.abci.voteExtensionsEnabled height = some true) :
    state'.consensusParams.abci.voteExtensionsEnableHeight = state.consensusParams.abci.voteExtensionsEnableHeight ∧
      state'.consensusParams.abci.voteExtensionsEnabled (height + 1) = some true := by
  obtain ⟨hone, hnz, hle⟩ := ABCIParams.voteExtensionsEnabled_eq_true.mp hen
  have hE : state'.consensusParams.abci.voteExtensionsEnableHeight =
      state.consensusParams.abci.voteExtensionsEnableHeight := by
    rcases updateState_enableHeight hs with heq | hok
    · exact heq
    · exact hok.eq_of_enabled (lt_of_le_of_ne hv.enableHeight_nonneg (Ne.symm hnz)) hle
  refine ⟨hE, ABCIParams.voteExtensionsEnabled_eq_true.mpr ⟨by omega, ?_, ?_⟩⟩
  · rw [hE]
    exact hnz
  · rw [hE]
    omega

/-! ### Runs -/

/-- Along the states at `height`, `height + 1`, …: vote extensions enabled at one height are enabled at
    every later one, with the same enable height. -/
def EnabledStays (height : Int) (states : List ParamsState) : Prop :=
  ∀ i j : ℕ, i ≤ j → ∀ s ∈ states[i]?, ∀ s' ∈ states[j]?,
    s.consensusParams.abci.voteExtensionsEnabled (height + i) = some true →
      s'.consensusParams.abci.voteExtensionsEnableHeight = s.consensusParams.abci.voteExtensionsEnableHeight ∧
      s'.consensusParams.abci.voteExtensionsEnabled (height + j) = some true

/-- Along the states at `height`, `height + 1`, …: a change of the enable height to one that is not zero,
    made by the block at `height + i`, is to a height after it. -/
def ChangesAhead (height : Int) (states : List ParamsState) : Prop :=
  ∀ i : ℕ, ∀ s ∈ states[i]?, ∀ s' ∈ states[i + 1]?,
    s'.consensusParams.abci.voteExtensionsEnableHeight ≠ s.consensusParams.abci.voteExtensionsEnableHeight →
    s'.consensusParams.abci.voteExtensionsEnableHeight ≠ 0 →
      height + i < s'.consensusParams.abci.voteExtensionsEnableHeight

theorem enabledStays_singleton (height : Int) (state : ParamsState) : EnabledStays height [state] := by
  intro i j hij s hmem s' hmem' hen
  -- a list of one state has nothing at a positive index
  obtain rfl : j = 0 := by
    by_contra hj
    simp [List.getElem?_eq_none (show [state].length ≤ j by simp; omega)] at hmem'
  obtain rfl : i = 0 := by omega
  obtain rfl : state = s := by simpa using hmem
  obtain rfl : state = s' := by simpa using hmem'
  exact ⟨rfl, hen⟩

/-- One block in front of a run that keeps enabled vote extensions enabled. -/
theorem EnabledStays.cons {state state' : ParamsState} {height : Int} {u : Option ConsensusParamsProto}
    {states : List ParamsState} (hs : state.updateState height u = .ok state') (hv : state.consensusParams.Valid)
    (hrest : EnabledStays (height + 1) (state' :: states)) : EnabledStays height (state :: state' :: states) := by
  have hcast : ∀ n : ℕ, height + ((n + 1 : ℕ) : ℤ) = height + 1 + n := by omega
  intro i j hij s hmem s' hmem' hen
  cases i with
  | zero =>
    -- the state at `height` enables them; the block keeps that, and the rest of the run carries it on
    obtain rfl : state = s := by simpa using hmem
    have hen₀ : state.consensusParams.abci.voteExtensionsEnabled height = some true := by simpa using hen
    cases j with
    | zero =>
      obtain rfl : state = s' := by simpa using hmem'
      exact ⟨rfl, hen⟩
    | succ j =>
      obtain ⟨hE, hen₁⟩ := updateState_keeps_enabled hs hv hen₀
      obtain ⟨hE', hen'⟩ := hrest 0 j (Nat.zero_le _) state' rfl s' (by simpa using hmem') (by simpa using hen₁)
      exact ⟨hE'.trans hE, by rw [hcast]; exact hen'⟩
  | succ i =>
    cases j with
    | zero => omega
    | succ j =>
      rw [hcast] at hen ⊢
      exact hrest i j (by omega) s (by simpa using hmem) s' (by simpa using hmem') hen

theorem updateStates_enabledStays {state : ParamsState} {height : Int} {us : List (Option ConsensusParamsProto)}
    {states : List ParamsState} (hv : state.consensusParams.Valid) (hrun : updateStates state height us = .ok states) :
    EnabledStays height (state :: states) := by
  induction us generalizing state height states with
  | nil =>
    obtain rfl : states = [] := (Except.ok.inj hrun).symm
    exact enabledStays_singleton height state
  | cons u us ih =>
    obtain ⟨state', states', hs, hrun', rfl⟩ := updateStates_cons_eq_ok hrun
    exact EnabledStays.cons hs hv (ih (updateState_valid hs hv) hrun')

theorem updateStates_changesAhead {state : ParamsState} {height : Int} {us : List (Option ConsensusParamsProto)}
    {states : List ParamsState} (hrun : updateStates state height us = .ok states) :
    ChangesAhead height (state :: states) := by
  induction us generalizing state height states with
  | nil =>
    obtain rfl : states = [] := (Except.ok.inj hrun).symm
    intro i s _ s' hmem'
    simp at hmem'
  | cons u us ih =>
    obtain ⟨state', states', hs, hrun', rfl⟩ := updateStates_cons_eq_ok hrun
    intro i s hmem s' hmem' hne hnz
    cases i with
    | zero =>
      -- the first block: `ValidateUpdate` accepted the change at `height`
      obtain rfl : state = s := by simpa using hmem
      obtain rfl : state' = s' := by simpa using hmem'
      rcases updateState_enableHeight hs with heq | hok
      · exact absurd heq hne
      · simpa using hok.lt_of_ne hne hnz
    | succ i =>
      have := ih hrun' i s (by simpa using hmem) s' (by simpa using hmem') hne hnz
      push_cast
      omega

end ParamsState

/-- Vote extensions, once enabled, stay enabled with the enable height they had, and every accepted
    change of the enable height to a non-zero height is to a height after the block that made it; for
    parameters that passed `ValidateBasic`, as those of the genesis do. -/
theorem voteExtensionsEnableHeight_stable {state : ParamsState} {height : Int}
    {us : List (Option ConsensusParamsProto)} {states : List ParamsState}
    (hvalid : state.consensusParams.validateBasic = .ok ())
    (hrun : ParamsState.updateStates state height us = .ok states) :
    ParamsState.EnabledStays height (state :: states) ∧ ParamsState.ChangesAhead height (state :: states) :=
  ⟨ParamsState.updateStates_enabledStays (ConsensusParams.validateBasic_eq_ok.mp hvalid) hrun,
    ParamsState.updateStates_changesAhead hrun⟩

/-- The default parameters, an update at height 1 that enables vote extensions from height 3, and two
    blocks without updates. -/
theorem voteExtensionsEnableHeight_stable_scheduled :
    ∃ states, ParamsState.updateStates ⟨0, defaultConsensusParams, 0⟩ 1
        [some ⟨none, none, none, none, some ⟨3⟩⟩, none, none] = .ok states ∧
      ParamsState.EnabledStays 1 (⟨0, defaultConsensusParams, 0⟩ :: states) ∧
      ParamsState.ChangesAhead 1 (⟨0, defaultConsensusParams, 0⟩ :: states) :=
  by
  have hrun : ParamsState.updateStates ⟨0, defaultConsensusParams, 0⟩ 1
      [some ⟨none, none, none, none, some ⟨3⟩⟩, none, none] = .ok _ := rfl
  exact ⟨_, hrun, voteExtensionsEnableHeight_stable ConsensusParams.defaultConsensusParams_validateBasic hrun⟩

end CometBFT
