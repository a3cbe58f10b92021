import CometBFT.Light.Detector
import CometBFT.Types.Validation
import CometBFT.Lib.Loop

/-! Verification by skipping (`light/client.go`, `verifySkipping`, and `light/verifier.go`). The loop keeps
    a cache of fetched blocks, newest target first, and a cursor `depth` into it; it verifies the block at
    the cursor against the last verified block, and when the new validator set cannot be trusted it fetches
    the block at the pivot height `T' + (H - T') * 9 / 16` and appends it to the cache (twice, as the code
    does).

    `Verify` is modelled down to the checks on heights and times; the checks of signatures, hashes and
    `ValidateBasic` are the fields of `Verifier`, each `none` or `.ok ()` when it passes. Heights are
    `int64`s, and the pivot is computed in `int64` arithmetic. -/

namespace CometBFT

namespace Light

/-- The errors of `verifyNewHeaderAndVals`, and `VerifyCommitLight`'s, all wrapped in `ErrInvalidHeader`. -/
inductive HeaderError
  /-- "untrustedHeader.ValidateBasic failed: %w" -/
  | validateBasic (msg : String)
  /-- "expected new header height %d to be greater than one of old header %d" -/
  | heightNotGreater (newHeight oldHeight : Int64)
  /-- "expected new header time %v to be after old header time %v" -/
  | timeNotAfter (newTime oldTime : Int)
  /-- "new header has a time from the future %v (now: %v; max clock drift: %v)" -/
  | timeFromFuture (time now maxClockDrift : Int)
  /-- "expected new header validators (%X) to match those that were supplied (%X) at height %d" -/
  | validatorsMismatch
  | commit (e : CommitError)
  deriving Repr, DecidableEq

/-- The errors of `Verify`. -/
inductive VerifyError
  /-- "headers must be non adjacent in height" -/
  | nonAdjacent
  /-- "headers must be adjacent in height" -/
  | adjacent
  /-- `ErrOldHeaderExpired{trustedHeader.Time.Add(trustingPeriod), now}` -/
  | oldHeaderExpired (expiredAt now : Int)
  /-- `ErrInvalidHeader` -/
  | invalidHeader (reason : HeaderError)
  /-- `ErrNewValSetCantBeTrusted`: less than the trust level of the trusted validators signed -/
  | newValSetCantBeTrusted (got needed : Int)
  /-- "expected old header next validators (%X) to match those from new header (%X)" -/
  | nextValidatorsMismatch
  /-- another error of `VerifyCommitLightTrusting`, returned as it is -/
  | commit (e : CommitError)
  deriving Repr, DecidableEq

/-- The arguments of `Verify` other than the two blocks, and the checks it makes that this model leaves
    open. Times and durations are in nanoseconds. -/
structure Verifier where
  trustingPeriod : Int
  now : Int
  maxClockDrift : Int
  /-- `untrustedHeader.ValidateBasic(trustedHeader.ChainID)`, of the untrusted and the trusted block -/
  validateBasic : LightBlock → LightBlock → Option String
  /-- `untrustedHeader.ValidatorsHash` is `untrustedVals.Hash()` -/
  validatorsMatch : LightBlock → Bool
  /-- `untrustedHeader.ValidatorsHash` is `trustedHeader.NextValidatorsHash`, of the untrusted and the
      trusted block -/
  nextValidatorsMatch : LightBlock → LightBlock → Bool
  /-- `trustedVals.VerifyCommitLightTrusting(…, untrustedHeader.Commit, trustLevel)`, of the trusted and the
      untrusted block -/
  commitLightTrusting : LightBlock → LightBlock → Except CommitError Unit
  /-- `untrustedVals.VerifyCommitLight(…)` -/
  commitLight : LightBlock → Except CommitError Unit

namespace Verifier

variable (v : Verifier)

/-- `HeaderExpired`. -/
def headerExpired (h : LightBlock) : Bool :=
  !decide (h.time + v.trustingPeriod > v.now)

/-- `verifyNewHeaderAndVals`. -/
def verifyNewHeaderAndVals (untrusted trusted : LightBlock) : Option HeaderError :=
  match v.validateBasic untrusted trusted with
  | some msg => some (.validateBasic msg)
  | none =>
    if untrusted.height ≤ trusted.height then some (.heightNotGreater untrusted.height trusted.height)
    else if !decide (untrusted.time > trusted.time) then some (.timeNotAfter untrusted.time trusted.time)
    else if !decide (untrusted.time < v.now + v.maxClockDrift) then
      some (.timeFromFuture untrusted.time v.now v.maxClockDrift)
    else if !v.validatorsMatch untrusted then some .validatorsMismatch
    else none

/-- The last check of both `VerifyNonAdjacent` and `VerifyAdjacent`: `+2/3` of the new validators signed. -/
def commitLightCheck (untrusted : LightBlock) : Option VerifyError :=
  match v.commitLight untrusted with
  | .error e => some (.invalidHeader (.commit e))
  | .ok () => none

/-- `VerifyNonAdjacent`. -/
def verifyNonAdjacent (trusted untrusted : LightBlock) : Option VerifyError :=
  if untrusted.height = trusted.height + 1 then some .nonAdjacent
  else if v.headerExpired trusted then some (.oldHeaderExpired (trusted.time + v.trustingPeriod) v.now)
  else
    match v.verifyNewHeaderAndVals untrusted trusted with
    | some e => some (.invalidHeader e)
    | none =>
      match v.commitLightTrusting trusted untrusted with
      | .error (.notEnoughVotingPowerSigned got needed) => some (.newValSetCantBeTrusted got needed)
      | .error e => some (.commit e)
      | .ok () => v.commitLightCheck untrusted

/-- `VerifyAdjacent`. -/
def verifyAdjacent (trusted untrusted : LightBlock) : Option VerifyError :=
  if untrusted.height ≠ trusted.height + 1 then some .adjacent
  else if v.headerExpired trusted then some (.oldHeaderExpired (trusted.time + v.trustingPeriod) v.now)
  else
    match v.verifyNewHeaderAndVals untrusted trusted with
    | some e => some (.invalidHeader e)
    | none =>
      if !v.nextValidatorsMatch untrusted trusted then some .nextValidatorsMismatch
      else v.commitLightCheck untrusted

/-- `Verify`: `none` is `nil`. -/
def verify (trusted untrusted : LightBlock) : Option VerifyError :=
  if untrusted.height ≠ trusted.height + 1 then v.verifyNonAdjacent trusted untrusted
  else v.verifyAdjacent trusted untrusted

end Verifier

/-- `verifySkippingNumerator`. -/
def verifySkippingNumerator : Int64 := 9

/-- `verifySkippingDenominator`. -/
def verifySkippingDenominator : Int64 := 16

/-- The height `verifySkipping` fetches between the verified block and the block at the cursor. -/
def pivotHeight (verifiedHeight cachedHeight : Int64) : Int64 :=
  verifiedHeight + (cachedHeight - verifiedHeight) * verifySkippingNumerator / verifySkippingDenominator

/-- The errors `verifySkipping` returns. -/
inductive SkippingError
  /-- the error of `Verify`, returned as it is after a benign error of the provider -/
  | verify (e : VerifyError)
  /-- `ErrVerificationFailed{From, To, Reason}` for an error of `Verify` -/
  | verificationFailed (fromHeight toHeight : Int64) (reason : VerifyError)
  /-- `ErrVerificationFailed{From, To, Reason}` for another error of the provider -/
  | providerFailed (fromHeight toHeight : Int64) (reason : ProviderError)
  /-- `blockCache[depth]` out of range -/
  | indexOutOfRange
  deriving Repr, DecidableEq

/-- The provider errors after which `verifySkipping` returns `Verify`'s error: `ErrLightBlockNotFound`,
    `ErrNoResponse`, `ErrHeightTooHigh`. -/
def ProviderError.isBenign : ProviderError → Bool
  | .lightBlockNotFound | .noResponse | .heightTooHigh => true
  | _ => false

/-- The variables of `verifySkipping`'s loop, and the number of the source's next `LightBlock` call. -/
structure SkipState where
  blockCache : List LightBlock
  depth : ℕ
  verifiedBlock : LightBlock
  trace : List LightBlock
  call : ℕ

/-- One iteration of `verifySkipping`'s loop: one `Verify` call, then a return or the next state. -/
def verifySkippingStep (v : Verifier) (source : Witness) (newLightBlock : LightBlock) (s : SkipState) :
    Except SkippingError (List LightBlock) ⊕ SkipState :=
  match s.blockCache[s.depth]? with
  | none => .inl (.error .indexOutOfRange)
  | some cached =>
    match v.verify s.verifiedBlock cached with
    | none =>
      -- the target is verified; otherwise the cached block becomes the lower bound
      if s.depth = 0 then .inl (.ok (s.trace ++ [newLightBlock]))
      else .inr { s with verifiedBlock := cached, blockCache := s.blockCache.take s.depth, depth := 0,
                         trace := s.trace ++ [cached] }
    | some (.newValSetCantBeTrusted got needed) =>
      if s.depth = s.blockCache.length - 1 then
        let pivot := pivotHeight s.verifiedBlock.height cached.height
        match source s.call pivot with
        | .ok interimBlock =>
          .inr { s with blockCache := s.blockCache ++ [interimBlock, interimBlock], depth := s.depth + 1,
                        call := s.call + 1 }
        | .error e =>
          if e.isBenign then .inl (.error (.verify (.newValSetCantBeTrusted got needed)))
          else .inl (.error (.providerFailed s.verifiedBlock.height pivot e))
      else .inr { s with depth := s.depth + 1 }
    | some err => .inl (.error (.verificationFailed s.verifiedBlock.height cached.height err))

/-- `verifySkipping` from `trustedBlock` to `newLightBlock`, for at most `fuel` calls of `Verify`. -/
def verifySkipping (v : Verifier) (source : Witness) (trustedBlock newLightBlock : LightBlock) (fuel : ℕ) :
    Option (Except SkippingError (List LightBlock)) :=
  Loop.run (verifySkippingStep v source newLightBlock) fuel
    { blockCache := [newLightBlock], depth := 0, verifiedBlock := trustedBlock, trace := [trustedBlock], call := 0 }

/-! ### Heights -/

theorem toInt_sub_of_le {l u : Int64} (hl : 0 ≤ l.toInt) (hlu : l.toInt ≤ u.toInt) :
    (u - l).toInt = u.toInt - l.toInt := by
  have hu := u.toInt_lt
  rw [Int64.toInt_sub]
  exact Int.bmod_eq_of_le (by omega) (by omega)

/-- `tdiv` by 16 rounds toward zero: it is the floor, or one above it for a negative non-multiple. -/
theorem tdiv_sixteen (m : Int) : m / 16 ≤ m.tdiv 16 ∧ m.tdiv 16 ≤ m / 16 + 1 ∧ (0 ≤ m → m.tdiv 16 = m / 16) := by
  have hsign : Int.sign 16 = 1 := rfl
  rw [Int.tdiv_eq_ediv, hsign]
  split_ifs with h
  · omega
  · omega

theorem toInt_mul_numerator {l u : Int64} (hl : 0 ≤ l.toInt) (hlu : l.toInt ≤ u.toInt) :
    ((u - l) * verifySkippingNumerator).toInt = ((u.toInt - l.toInt) * 9).bmod (2 ^ 64) := by
  rw [Int64.toInt_mul, toInt_sub_of_le hl hlu]
  rfl

/-- A wrapped product is at most the true one. -/
theorem toInt_mul_numerator_le {l u : Int64} (hl : 0 ≤ l.toInt) (hlu : l.toInt ≤ u.toInt) :
    ((u - l) * verifySkippingNumerator).toInt ≤ (u.toInt - l.toInt) * 9 := by
  rw [toInt_mul_numerator hl hlu, Int.bmod_def]
  split_ifs <;> omega

/-- The pivot as integers: the quotient, rounded toward zero, of the product as `int64` computes it. The
    sum does not overflow, since the quotient is below the gap. -/
theorem pivotHeight_toInt {l u : Int64} (hl : 0 ≤ l.toInt) (hlu : l.toInt < u.toInt) :
    (pivotHeight l u).toInt = l.toInt + ((u - l) * verifySkippingNumerator).toInt.tdiv 16 := by
  have hlo := ((u - l) * verifySkippingNumerator).le_toInt
  have hm := toInt_mul_numerator_le hl hlu.le
  have hq := tdiv_sixteen ((u - l) * verifySkippingNumerator).toInt
  have hu := u.toInt_lt
  have h16 : verifySkippingDenominator.toInt = 16 := rfl
  unfold pivotHeight
  rw [Int64.toInt_add, Int64.toInt_div_of_ne_right _ _ (by decide), h16]
  exact Int.bmod_eq_of_le (by omega) (by omega)

/-- The pivot is below the block at the cursor. -/
theorem pivotHeight_lt {l u : Int64} (hl : 0 ≤ l.toInt) (hlu : l.toInt < u.toInt) :
    (pivotHeight l u).toInt < u.toInt := by
  have hq := tdiv_sixteen ((u - l) * verifySkippingNumerator).toInt
  have hm := toInt_mul_numerator_le hl hlu.le
  rw [pivotHeight_toInt hl hlu]
  omega

/-- Without overflow the pivot is strictly between. -/
theorem lt_pivotHeight {l u : Int64} (hl : 0 ≤ l.toInt) (hgap : l.toInt + 2 ≤ u.toInt)
    (hover : (u.toInt - l.toInt) * 9 < 2 ^ 63) : l.toInt < (pivotHeight l u).toInt := by
  have hq := tdiv_sixteen ((u - l) * verifySkippingNumerator).toInt
  have hm : ((u - l) * verifySkippingNumerator).toInt = (u.toInt - l.toInt) * 9 := by
    rw [toInt_mul_numerator hl (by omega)]
    exact Int.bmod_eq_of_le (by omega) (by omega)
  rw [pivotHeight_toInt hl (by omega)]
  omega

/-! ### What `Verify` says about heights -/

namespace Verifier

variable {v : Verifier} {trusted untrusted : LightBlock}

theorem verifyNewHeaderAndVals_of_le (hle : untrusted.height ≤ trusted.height) :
    v.verifyNewHeaderAndVals untrusted trusted ≠ none := by
  unfold verifyNewHeaderAndVals
  split
  · simp
  · rw [if_pos hle]
    simp

/-- A failed `verifyNewHeaderAndVals` fails `Verify`, with an error other than `ErrNewValSetCantBeTrusted`. -/
theorem verify_of_verifyNewHeaderAndVals (he : v.verifyNewHeaderAndVals untrusted trusted ≠ none) :
    v.verify trusted untrusted ≠ none ∧
      ∀ got needed, v.verify trusted untrusted ≠ some (.newValSetCantBeTrusted got needed) := by
  obtain ⟨e, he⟩ := Option.ne_none_iff_exists'.mp he
  unfold verify verifyNonAdjacent verifyAdjacent
  rw [he]
  split_ifs <;> simp

theorem verifyAdjacent_ne_cantBeTrusted {got needed : Int} :
    v.verifyAdjacent trusted untrusted ≠ some (.newValSetCantBeTrusted got needed) := by
  unfold verifyAdjacent commitLightCheck
  split_ifs
  · simp
  · simp
  · split <;> simp
  · split
    · simp
    · split <;> simp

/-- `Verify` passes only for a higher block. -/
theorem lt_of_verify_eq_none (h : v.verify trusted untrusted = none) : trusted.height < untrusted.height := by
  by_contra hle
  exact (verify_of_verifyNewHeaderAndVals (verifyNewHeaderAndVals_of_le (Int64.not_lt.mp hle))).1 h

/-- The new validator set is found untrustworthy only for a block higher than the next one: `Verify` takes
    the adjacent path for the next one, and that path never reports it. -/
theorem add_two_le_of_verify_eq_cantBeTrusted {got needed : Int}
    (h : v.verify trusted untrusted = some (.newValSetCantBeTrusted got needed)) :
    trusted.height.toInt + 2 ≤ untrusted.height.toInt := by
  have hlt : trusted.height.toInt < untrusted.height.toInt := by
    by_contra hle
    have hle' : untrusted.height ≤ trusted.height := Int64.le_iff_toInt_le.mpr (by omega)
    exact (verify_of_verifyNewHeaderAndVals (verifyNewHeaderAndVals_of_le hle')).2 got needed h
  have hadj : untrusted.height ≠ trusted.height + 1 := by
    intro hadj
    unfold verify at h
    rw [if_neg (not_not.mpr hadj)] at h
    exact verifyAdjacent_ne_cantBeTrusted h
  have hu := untrusted.height.toInt_lt
  have ht := trusted.height.le_toInt
  have hone : (trusted.height + 1).toInt = trusted.height.toInt + 1 := by
    rw [Int64.toInt_add, Int64.toInt_one]
    exact Int.bmod_eq_of_le (by omega) (by omega)
  have hne : untrusted.height.toInt ≠ trusted.height.toInt + 1 := by
    rw [← hone]
    exact fun heq => hadj (Int64.toInt_inj.mp heq)
  omega

end Verifier

/-! ### One iteration -/

section Step

variable {v : Verifier} {source : Witness} {N : LightBlock} {s s' : SkipState}

/-- What an iteration that goes round does: after a passed `Verify` of a block other than the target, that
    block becomes the verified one and the cache is cut before it; after `ErrNewValSetCantBeTrusted` the
    cursor moves on, past a fetched pivot block appended twice when it was at the end. -/
theorem verifySkippingStep_eq_inr (h : verifySkippingStep v source N s = .inr s') :
    ∃ cached, s.blockCache[s.depth]? = some cached ∧
      ((v.verify s.verifiedBlock cached = none ∧ s.depth ≠ 0 ∧
          s' = { s with verifiedBlock := cached, blockCache := s.blockCache.take s.depth, depth := 0,
                        trace := s.trace ++ [cached] }) ∨
        (∃ got needed, v.verify s.verifiedBlock cached = some (.newValSetCantBeTrusted got needed) ∧
          ((s.depth = s.blockCache.length - 1 ∧
              ∃ b, source s.call (pivotHeight s.verifiedBlock.height cached.height) = .ok b ∧
                s' = { s with blockCache := s.blockCache ++ [b, b], depth := s.depth + 1, call := s.call + 1 }) ∨
            (s.depth ≠ s.blockCache.length - 1 ∧ s' = { s with depth := s.depth + 1 })))) := by
  unfold verifySkippingStep at h
  split at h
  · cases h
  rename_i cached hcached
  refine ⟨cached, hcached, ?_⟩
  split at h
  · rename_i hv
    split_ifs at h with hd
    exact .inl ⟨hv, hd, (Sum.inr.inj h).symm⟩
  · rename_i got needed hv
    refine .inr ⟨got, needed, hv, ?_⟩
    split_ifs at h with hd
    · dsimp only at h
      split at h
      · rename_i b hb
        exact .inl ⟨hd, b, hb, (Sum.inr.inj h).symm⟩
      · split_ifs at h
    · exact .inr ⟨hd, (Sum.inr.inj h).symm⟩
  · cases h

/-- The loop returns a trace only after verifying the block at the start of the cache. -/
theorem verifySkippingStep_eq_ok {trace : List LightBlock} (h : verifySkippingStep v source N s = .inl (.ok trace)) :
    ∃ cached, s.blockCache[s.depth]? = some cached ∧ v.verify s.verifiedBlock cached = none ∧ s.depth = 0 ∧
      trace = s.trace ++ [N] := by
  unfold verifySkippingStep at h
  split at h
  · cases h
  rename_i cached hcached
  split at h
  · rename_i hv
    split_ifs at h with hd
    exact ⟨cached, hcached, hv, hd, (Except.ok.inj (Sum.inl.inj h)).symm⟩
  · split_ifs at h
    · dsimp only at h
      split at h
      · cases h
      · split_ifs at h <;> cases h
  · cases h

end Step

/-! ### The invariant of the loop -/

/-- What `verifySkipping`'s loop keeps, from the trusted block `T` to the target `N`. -/
structure SkipInv (v : Verifier) (T N : LightBlock) (s : SkipState) : Prop where
  cache_head : s.blockCache.head? = some N
  depth_lt : s.depth < s.blockCache.length
  /-- the cache descends in height from the target -/
  cache_sorted : s.blockCache.Pairwise fun a b => b.height.toInt ≤ a.height.toInt
  verified_nonneg : 0 ≤ s.verifiedBlock.height.toInt
  trace_head : s.trace.head? = some T
  trace_last : s.trace.getLast? = some s.verifiedBlock
  /-- every block of the trace passed `Verify` against the one before it -/
  trace_verified : s.trace.IsChain fun a b => v.verify a b = none

/-- The loop's measure: the gap from the verified block to the target; then twice the gap to the block at
    the cursor, and the blocks after the cursor. -/
def SkipState.measure (N : LightBlock) (s : SkipState) : ℕ ×ₗ ℕ :=
  toLex ((N.height.toInt - s.verifiedBlock.height.toInt).toNat,
    2 * ((s.blockCache[s.depth]?.map (·.height.toInt)).getD 0 - s.verifiedBlock.height.toInt).toNat +
      (s.blockCache.length - 1 - s.depth))

section Invariant

variable {v : Verifier} {source : Witness} {T N : LightBlock} {s s' : SkipState}

theorem skipInv_init (hT : 0 ≤ T.height.toInt) :
    SkipInv v T N { blockCache := [N], depth := 0, verifiedBlock := T, trace := [T], call := 0 } where
  cache_head := rfl
  depth_lt := Nat.zero_lt_one
  cache_sorted := List.pairwise_singleton _ _
  verified_nonneg := hT
  trace_head := rfl
  trace_last := rfl
  trace_verified := List.isChain_singleton _

/-- A later block of the cache is no higher. -/
theorem SkipInv.height_le (hi : SkipInv v T N s) {i j : ℕ} {a c : LightBlock} (hij : i ≤ j)
    (ha : s.blockCache[i]? = some a) (hc : s.blockCache[j]? = some c) : c.height.toInt ≤ a.height.toInt := by
  obtain ⟨hi', rfl⟩ := List.getElem?_eq_some_iff.mp ha
  obtain ⟨hj', rfl⟩ := List.getElem?_eq_some_iff.mp hc
  rcases Nat.lt_or_eq_of_le hij with hlt | rfl
  · exact List.pairwise_iff_getElem.mp hi.cache_sorted i j hi' hj' hlt
  · exact le_rfl

/-- Every block of the cache is at most the target's height. -/
theorem SkipInv.le_target (hi : SkipInv v T N s) {j : ℕ} {c : LightBlock} (hc : s.blockCache[j]? = some c) :
    c.height.toInt ≤ N.height.toInt :=
  hi.height_le (Nat.zero_le j) (by rw [← List.head?_eq_getElem?]; exact hi.cache_head) hc

/-- Appending a block that passed `Verify` against the verified one extends the trace. -/
theorem SkipInv.trace_append (hi : SkipInv v T N s) {c : LightBlock} (hv : v.verify s.verifiedBlock c = none) :
    (s.trace ++ [c]).head? = some T ∧ (s.trace ++ [c]).getLast? = some c ∧
      (s.trace ++ [c]).IsChain fun a b => v.verify a b = none := by
  refine ⟨by simp [List.head?_append, hi.trace_head], List.getLast?_concat .., ?_⟩
  refine List.isChain_append.mpr ⟨hi.trace_verified, List.isChain_singleton _, ?_⟩
  intro x hx y hy
  rw [hi.trace_last, Option.mem_some_iff] at hx
  rw [List.head?_cons, Option.mem_some_iff] at hy
  subst hx hy
  exact hv

/-- A passed `Verify` of the block at a cursor past the start: that block is verified. -/
theorem SkipInv.verified (hi : SkipInv v T N s) {cached : LightBlock} (hv : v.verify s.verifiedBlock cached = none)
    (hd : s.depth ≠ 0) :
    SkipInv v T N { s with verifiedBlock := cached, blockCache := s.blockCache.take s.depth, depth := 0,
                           trace := s.trace ++ [cached] } where
  cache_head := by
    rw [List.head?_take, if_neg hd]
    exact hi.cache_head
  depth_lt := by
    have := hi.depth_lt
    simp only [List.length_take]
    omega
  cache_sorted := hi.cache_sorted.sublist (List.take_sublist _ _)
  verified_nonneg := hi.verified_nonneg.trans (Int64.lt_iff_toInt_lt.mp (Verifier.lt_of_verify_eq_none hv)).le
  trace_head := (hi.trace_append hv).1
  trace_last := (hi.trace_append hv).2.1
  trace_verified := (hi.trace_append hv).2.2

/-- The fetched pivot block, below the block at the cursor, keeps the cache descending. -/
theorem SkipInv.fetched (hi : SkipInv v T N s) {cached b : LightBlock} {got needed : Int}
    (hc : s.blockCache[s.depth]? = some cached)
    (hv : v.verify s.verifiedBlock cached = some (.newValSetCantBeTrusted got needed))
    (hd : s.depth = s.blockCache.length - 1) (hb : b.height = pivotHeight s.verifiedBlock.height cached.height) :
    SkipInv v T N { s with blockCache := s.blockCache ++ [b, b], depth := s.depth + 1, call := s.call + 1 } where
  cache_head := by
    have := hi.depth_lt
    rw [List.head?_append_of_ne_nil _ (List.ne_nil_of_length_pos (by omega))]
    exact hi.cache_head
  depth_lt := by
    have := hi.depth_lt
    simp only [List.length_append, List.length_cons, List.length_nil]
    omega
  cache_sorted := by
    have hgap := Verifier.add_two_le_of_verify_eq_cantBeTrusted hv
    have hpivot := pivotHeight_lt hi.verified_nonneg (by omega : s.verifiedBlock.height.toInt < cached.height.toInt)
    refine List.pairwise_append.mpr ⟨hi.cache_sorted, by simp, fun a ha c hc' => ?_⟩
    obtain ⟨i, hi', hia⟩ := List.getElem_of_mem ha
    have hcached := hi.height_le (by omega : i ≤ s.depth) (List.getElem?_eq_some_iff.mpr ⟨hi', hia⟩) hc
    have hcb : c = b := by simpa using hc'
    rw [hcb, hb]
    omega
  verified_nonneg := hi.verified_nonneg
  trace_head := hi.trace_head
  trace_last := hi.trace_last
  trace_verified := hi.trace_verified

theorem SkipInv.advance (hi : SkipInv v T N s) (hd : s.depth ≠ s.blockCache.length - 1) :
    SkipInv v T N { s with depth := s.depth + 1 } where
  cache_head := hi.cache_head
  depth_lt := by
    have := hi.depth_lt
    dsimp only
    omega
  cache_sorted := hi.cache_sorted
  verified_nonneg := hi.verified_nonneg
  trace_head := hi.trace_head
  trace_last := hi.trace_last
  trace_verified := hi.trace_verified

/-! The measure descends: a verified block closes the gap to the target; a fetched pivot is below the
    block at the cursor, and moving the cursor on leaves fewer blocks after it. -/

theorem SkipInv.measure_verified (hi : SkipInv v T N s) {cached : LightBlock}
    (hc : s.blockCache[s.depth]? = some cached) (hv : v.verify s.verifiedBlock cached = none) :
    SkipState.measure N { s with verifiedBlock := cached, blockCache := s.blockCache.take s.depth, depth := 0,
                                 trace := s.trace ++ [cached] } < s.measure N := by
  have hlt := Int64.lt_iff_toInt_lt.mp (Verifier.lt_of_verify_eq_none hv)
  have hle := hi.le_target hc
  refine Prod.Lex.toLex_lt_toLex.mpr (.inl ?_)
  dsimp only
  omega

theorem SkipInv.measure_fetched (hi : SkipInv v T N s) {cached b : LightBlock} {got needed : Int}
    (hc : s.blockCache[s.depth]? = some cached)
    (hv : v.verify s.verifiedBlock cached = some (.newValSetCantBeTrusted got needed))
    (hd : s.depth = s.blockCache.length - 1) (hb : b.height = pivotHeight s.verifiedBlock.height cached.height) :
    SkipState.measure N { s with blockCache := s.blockCache ++ [b, b], depth := s.depth + 1,
                                 call := s.call + 1 } < s.measure N := by
  have hgap := Verifier.add_two_le_of_verify_eq_cantBeTrusted hv
  have hpivot := pivotHeight_lt hi.verified_nonneg (by omega : s.verifiedBlock.height.toInt < cached.height.toInt)
  have hlen := hi.depth_lt
  have hnew : (s.blockCache ++ [b, b])[s.depth + 1]? = some b := by
    rw [List.getElem?_append_right (by omega)]
    simp [show s.depth + 1 - s.blockCache.length = 0 by omega]
  refine Prod.Lex.toLex_lt_toLex.mpr (.inr ⟨rfl, ?_⟩)
  simp only [hnew, hc, Option.map_some, Option.getD_some, List.length_append, List.length_cons,
    List.length_nil, hb]
  omega

theorem SkipInv.measure_advance (hi : SkipInv v T N s) {cached : LightBlock}
    (hc : s.blockCache[s.depth]? = some cached) (hd : s.depth ≠ s.blockCache.length - 1) :
    SkipState.measure N { s with depth := s.depth + 1 } < s.measure N := by
  have hlen := hi.depth_lt
  have hlt : s.depth + 1 < s.blockCache.length := by omega
  have hnext : s.blockCache[s.depth + 1]? = some s.blockCache[s.depth + 1] := List.getElem?_eq_getElem hlt
  have hle := hi.height_le (Nat.le_succ _) hc hnext
  refine Prod.Lex.toLex_lt_toLex.mpr (.inr ⟨rfl, ?_⟩)
  simp only [hnext, hc, Option.map_some, Option.getD_some]
  omega

/-- Every iteration that goes round keeps the invariant and lowers the measure. -/
theorem SkipInv.step (hsource : ∀ n height b, source n height = .ok b → b.height = height)
    (hi : SkipInv v T N s) (h : verifySkippingStep v source N s = .inr s') :
    SkipInv v T N s' ∧ s'.measure N < s.measure N := by
  obtain ⟨cached, hc, ⟨hv, hd, rfl⟩ | ⟨got, needed, hv, ⟨hd, b, hb, rfl⟩ | ⟨hd, rfl⟩⟩⟩ :=
    verifySkippingStep_eq_inr h
  · exact ⟨hi.verified hv hd, hi.measure_verified hc hv⟩
  · have hbh := hsource _ _ _ hb
    exact ⟨hi.fetched hc hv hd hbh, hi.measure_fetched hc hv hd hbh⟩
  · exact ⟨hi.advance hd, hi.measure_advance hc hd⟩

/-- A returned trace runs from the trusted block to the target, each block verified against the one before. -/
theorem SkipInv.done (hi : SkipInv v T N s) {trace : List LightBlock}
    (h : verifySkippingStep v source N s = .inl (.ok trace)) :
    trace.head? = some T ∧ trace.getLast? = some N ∧ trace.IsChain fun a b => v.verify a b = none := by
  obtain ⟨cached, hc, hv, hd, rfl⟩ := verifySkippingStep_eq_ok h
  have hN : cached = N := by
    rw [hd, ← List.head?_eq_getElem?, hi.cache_head] at hc
    exact (Option.some.inj hc).symm
  subst hN
  exact hi.trace_append hv

end Invariant

/-! ### The whole run -/

/-- Skipping verification ends after finitely many `Verify` calls, whatever a provider answers as long as
    it answers a height with a block of that height or an error. A returned trace runs from the trusted
    block to the target, rising in height, each block verified against the one before. Whenever `Verify`
    reports `ErrNewValSetCantBeTrusted`, the pivot lies strictly between the two heights, unless
    `(H - T') * 9` overflows an `int64`. -/
theorem verifySkipping_ends_verified {v : Verifier} {source : Witness} {T N : LightBlock}
    (hsource : ∀ n height b, source n height = .ok b → b.height = height) (hT : 0 ≤ T.height.toInt) :
    (∀ a b got needed, 0 ≤ a.height.toInt → v.verify a b = some (.newValSetCantBeTrusted got needed) →
        (b.height.toInt - a.height.toInt) * 9 < 2 ^ 63 →
        a.height.toInt < (pivotHeight a.height b.height).toInt ∧
          (pivotHeight a.height b.height).toInt < b.height.toInt) ∧
      ∃ fuel r, verifySkipping v source T N fuel = some r ∧
        ∀ trace, r = .ok trace → trace.head? = some T ∧ trace.getLast? = some N ∧
          trace.IsChain (fun a b => a.height < b.height) ∧ trace.IsChain fun a b => v.verify a b = none := by
  refine ⟨fun a b got needed ha hv hover => ?_, ?_⟩
  · have hgap := Verifier.add_two_le_of_verify_eq_cantBeTrusted hv
    exact ⟨lt_pivotHeight ha hgap hover, pivotHeight_lt ha (by omega)⟩
  have hinit : SkipInv v T N _ := skipInv_init hT
  -- the loop descends along the lexicographic measure, so it ends
  obtain ⟨fuel, r, hrun⟩ := Loop.exists_run (InvImage.wf (SkipState.measure N) wellFounded_lt)
    (fun _ _ hs h => hs.step hsource h) hinit
  -- every exit from a state of the invariant returns a verified trace
  have hdone : ∀ s a, SkipInv v T N s → verifySkippingStep v source N s = .inl a → ∀ trace, a = .ok trace →
      trace.head? = some T ∧ trace.getLast? = some N ∧ trace.IsChain fun a b => v.verify a b = none :=
    fun _ _ hs h trace htrace => hs.done (htrace ▸ h)
  refine ⟨fuel, r, hrun, fun trace htrace => ?_⟩
  obtain ⟨hhead, hlast, hchain⟩ :=
    Loop.run_of_inv (fun _ _ hs h => (hs.step hsource h).1) hdone hinit hrun trace htrace
  exact ⟨hhead, hlast, hchain.imp fun _ _ => Verifier.lt_of_verify_eq_none, hchain⟩

/-- A verifier that trusts a block at most three heights up, and a provider that answers every height: the
    run from height 1 to height 10 ends with a trace from the one to the other. -/
theorem verifySkipping_ends_verified_threeUp :
    ∃ fuel r, verifySkipping ⟨1000, 100, 10, fun _ _ => none, fun _ => true, fun _ _ => true,
        fun t u => if u.height.toInt - t.height.toInt ≤ 3 then .ok () else .error (.notEnoughVotingPowerSigned 0 1),
        fun _ => .ok ()⟩ (fun _ h => .ok ⟨h, h.toInt, []⟩) ⟨1, 1, []⟩ ⟨10, 10, []⟩ fuel = some r ∧
      ∀ trace, r = .ok trace → trace.head? = some ⟨1, 1, []⟩ ∧ trace.getLast? = some ⟨10, 10, []⟩ := by
  have hsource : ∀ n height b, (fun (_ : ℕ) (h : Int64) => (.ok ⟨h, h.toInt, []⟩ : Except ProviderError LightBlock))
      n height = .ok b → b.height = height := by
    intro n height b hb
    cases hb
    rfl
  have hT : 0 ≤ (⟨1, 1, []⟩ : LightBlock).height.toInt := by decide
  exact (verifySkipping_ends_verified hsource hT).2.imp fun _ ⟨r, hrun, hr⟩ =>
    ⟨r, hrun, fun trace htrace => ⟨(hr trace htrace).1, (hr trace htrace).2.1⟩⟩

/-- For a gap of `2 ^ 60` the product `(H - T') * 9` wraps around, and the pivot falls below the verified
    block although `Verify` reported `ErrNewValSetCantBeTrusted`. -/
theorem pivotHeight_wraps_below_verified :
    ∃ v : Verifier, v.verify ⟨1, 0, []⟩ ⟨2 ^ 60 + 1, 1, []⟩ = some (.newValSetCantBeTrusted 0 1) ∧
      pivotHeight 1 (2 ^ 60 + 1) < 1 :=
  ⟨⟨1000, 2, 10, fun _ _ => none, fun _ => true, fun _ _ => true,
    fun _ _ => .error (.notEnoughVotingPowerSigned 0 1), fun _ => .ok ()⟩, by decide +kernel, by decide +kernel⟩

end Light

end CometBFT
