import CometBFT.Types.ProposerRotation

/-! The change sets of `types/validator_set.go` on an empty set, as `NewValidatorSet` applies them.

    With positive powers every change is an update and a new validator, each starts at the same priority
    `-1.125` times the total power, and the centring that ends `updateWithChangeSet` brings them all to
    zero. So a set that `NewValidatorSet` builds is its validators at priority zero, rotated once. -/

namespace CometBFT

namespace ValidatorSet

theorem orPanic_eq_ok {α : Type} {o : Option α} {a : α} : orPanic o = .ok a ↔ o = some a := by
  cases o <;> simp [orPanic]

/-! ### The steps of `updateWithChangeSet` -/

/-- With positive powers the scan of `processChanges` puts every change among the updates. -/
theorem processChangesLoop_of_pos : ∀ {changes : List Validator} {prevAddr : Address} {updates removals updates' removals' : List Validator},
    (∀ v ∈ changes, 0 < v.votingPower) →
    processChangesLoop changes prevAddr updates removals = .ok (updates', removals') →
      updates' = updates ++ changes ∧ removals' = removals
  | [], _, _, _, _, _, _, h => by
    simp only [processChangesLoop, Except.ok.injEq, Prod.mk.injEq] at h
    exact ⟨by simp [h.1], h.2.symm⟩
  | v :: changes, prevAddr, updates, removals, updates', removals', hp, h => by
    have hv := hp v List.mem_cons_self
    have hneg : ¬v.votingPower < 0 := by omega
    have hzero : ¬v.votingPower = 0 := by omega
    -- A duplicate and a power above `MaxTotalVotingPower` are errors.
    by_cases hdup : v.address = prevAddr
    · simp [processChangesLoop, hdup] at h
    by_cases hmax : v.votingPower > maxTotalVotingPower
    · simp [processChangesLoop, hdup, hneg, hmax] at h
    simp only [processChangesLoop, hdup, hneg, hmax, hzero, if_false] at h
    obtain ⟨h₁, h₂⟩ := processChangesLoop_of_pos (fun w hw => hp w (List.mem_cons_of_mem _ hw)) h
    exact ⟨by simp [h₁], h₂⟩

theorem processChanges_of_pos {changes updates removals : List Validator} (hp : ∀ v ∈ changes, 0 < v.votingPower)
    (h : processChanges changes = .ok (updates, removals)) :
    updates.Perm changes ∧ removals = [] := by
  obtain ⟨rfl, rfl⟩ := processChangesLoop_of_pos
    (fun v hv => hp v ((List.perm_insertionSort _ changes).subset hv)) h
  exact ⟨List.perm_insertionSort _ changes, rfl⟩

/-- The running total of `verifyUpdates` ends at the start plus every delta plus the removed power. -/
theorem verifyUpdatesLoop_eq {vals : ValidatorSet} {removedPower : Int} :
    ∀ {updates : List Validator} {tvp r : Int}, verifyUpdatesLoop vals removedPower updates tvp = .ok r →
      r = tvp + (updates.map (delta · vals)).sum + removedPower
  | [], tvp, r, h => by
    simp only [verifyUpdatesLoop, Except.ok.injEq] at h
    simp [h]
  | u :: updates, tvp, r, h => by
    by_cases hgt : tvp + delta u vals > maxTotalVotingPower
    · simp [verifyUpdatesLoop, hgt] at h
    · simp only [verifyUpdatesLoop, hgt, if_false] at h
      rw [verifyUpdatesLoop_eq h, List.map_cons, List.sum_cons]
      ring

/-- On the empty set every update is new: its delta is its power. -/
theorem delta_empty (update : Validator) : delta update ⟨[], none⟩ = update.votingPower := rfl

theorem verifyUpdates_empty {updates : List Validator} {tvp : Int}
    (h : verifyUpdates updates ⟨[], none⟩ 0 = .ok tvp) : tvp = (updates.map (·.votingPower)).sum := by
  unfold verifyUpdates at h
  rw [verifyUpdatesLoop_eq h, ((List.perm_insertionSort _ updates).map _).sum_eq]
  simp [totalVotingPower, delta_empty]

/-- On the empty set every update is new and starts at `-1.125` times the total power. -/
theorem computeNewPriorities_empty (updates : List Validator) (tvp : Int) :
    computeNewPriorities updates ⟨[], none⟩ tvp =
      updates.map fun u => { u with proposerPriority := -(tvp + (tvp >>> 3)) } := by
  simp [computeNewPriorities, getByAddress]

theorem applyUpdates_empty (updates : List Validator) :
    (ValidatorSet.mk [] none).applyUpdates updates = ⟨updates, none⟩ := by
  simp [applyUpdates, applyUpdatesMerge]

/-- When no validator leaves, the proposer points where it did. -/
@[simp] theorem detach_nil (vals : ValidatorSet) : vals.detach [] = id :=
  funext fun p => by cases p <;> simp [detach]

theorem applyRemovals_nil (vals : ValidatorSet) : vals.applyRemovals [] = some vals := by
  simp [applyRemovals, applyRemovalsLoop]

/-- `updateTotalVotingPower` only checks. -/
theorem updateTotalVotingPower_eq_some {vals vals' : ValidatorSet} (h : vals.updateTotalVotingPower = some vals') :
    vals' = vals := by
  unfold updateTotalVotingPower at h
  dsimp only at h
  split_ifs at h
  exact (Option.some.inj h).symm

/-! ### Equal priorities -/

section Equal

variable {vals : ValidatorSet} {P : Int}

theorem sum_priorities_of_const (hP : ∀ v ∈ vals.validators, v.proposerPriority = P) :
    (vals.validators.map (·.proposerPriority)).sum = vals.validators.length * P := by
  rw [List.map_congr_left hP, List.map_const', List.sum_replicate, nsmul_eq_mul]

/-- `RescalePriorities` leaves equal bounded priorities as they are. -/
theorem rescalePriorities_of_const {diffMax : Int} (hne : vals.validators ≠ [])
    (hP : ∀ v ∈ vals.validators, v.proposerPriority = P) (hb : |P| ≤ 2 ^ 61) (hd : 0 < diffMax) :
    vals.rescalePriorities diffMax = some vals :=
  rescalePriorities_of_spread hne (fun v hv => hP v hv ▸ hb) hd
    (fun u hu v hv => by rw [hP u hu, hP v hv, sub_self]; exact hd.le)

/-- `shiftByAvgProposerPriority` brings equal bounded priorities to zero. -/
theorem shiftByAvgProposerPriority_of_const (hne : vals.validators ≠ [])
    (hP : ∀ v ∈ vals.validators, v.proposerPriority = P) (hb : |P| ≤ 2 ^ 61) :
    vals.shiftByAvgProposerPriority = some (vals.mapPriorities fun _ => 0) := by
  have hlen : (vals.validators.length : Int) ≠ 0 := by simpa using hne
  have hP' := abs_le.mp hb
  have havg : vals.computeAvgProposerPriority = some P := by
    have hrange : minInt64 ≤ P ∧ P ≤ maxInt64 := by
      constructor <;> simp only [minInt64, maxInt64] <;> omega
    simp only [computeAvgProposerPriority, sum_priorities_of_const hP, hlen, if_false,
      Int.mul_ediv_cancel_left _ hlen, hrange, and_self, if_true]
  simp only [shiftByAvgProposerPriority, isNilOrEmpty, List.isEmpty_iff, hne, if_false, havg,
    Option.bind_eq_bind, Option.bind_some, Option.pure_def]
  refine congrArg some (mapPriorities_congr fun v hv => ?_)
  rw [hP v hv, safeSubClip_eq (by simp only [minInt64]; omega) (by simp only [maxInt64]; omega), sub_self]

end Equal

/-! ### `NewValidatorSet` -/

/-- Go's arithmetic shift `x >> 3` is the floor of `x / 8`. -/
theorem shiftRight_three (x : Int) : x >>> 3 = x / 8 := by
  rw [show (3 : Int) = ((3 : Nat) : Int) from rfl, Int.shiftRight_natCast_right, Int.shiftRight_eq_div_pow]
  rfl

/-- The start priority `-(T + T >> 3)` of a new validator is within `2^61` of zero. -/
theorem abs_newPriority_le {tvp : Int} (h₀ : 0 ≤ tvp) (h : tvp ≤ maxTotalVotingPower) :
    |-(tvp + (tvp >>> 3))| ≤ 2 ^ 61 := by
  rw [maxTotalVotingPower_eq] at h
  rw [shiftRight_three, abs_le]
  constructor <;> omega

/-- `updateWithChangeSet` from the empty set with positive powers, when it succeeds, holds the changes at
    priority zero. -/
theorem updateWithChangeSet_empty {valz : List Validator} {vals : ValidatorSet} (hne : valz ≠ [])
    (hp : ∀ v ∈ valz, 0 < v.votingPower) (hT : (valz.map (·.votingPower)).sum ≤ maxTotalVotingPower)
    (h : (ValidatorSet.mk [] none).updateWithChangeSet valz false = .ok vals) :
    vals.validators.Perm (valz.map fun v => { v with proposerPriority := 0 }) := by
  simp only [updateWithChangeSet, hne, if_false] at h
  obtain ⟨⟨updates, deletes⟩, hpc, h⟩ := except_bind_eq_ok.mp h
  obtain ⟨hperm, rfl⟩ := processChanges_of_pos hp hpc
  -- Every change is a new validator, and none is removed.
  have hnew : numNewValidators updates ⟨[], none⟩ = valz.length := by
    simp [numNewValidators, hasAddress, hperm.length_eq]
  have hlen : valz.length ≠ 0 := by simpa using hne
  have hrem : verifyRemovals [] ⟨[], none⟩ = .ok 0 := rfl
  simp only [hnew, hlen, hrem, ne_eq, not_true_eq_false, and_false, false_and, if_false, List.length_nil,
    except_ok_bind] at h
  obtain ⟨tvp, hvu, h⟩ := except_bind_eq_ok.mp h
  obtain ⟨vals₁, h₁, h⟩ := except_bind_eq_ok.mp h
  obtain ⟨vals₂, h₂, h⟩ := except_bind_eq_ok.mp h
  obtain ⟨vals₃, h₃, h⟩ := except_bind_eq_ok.mp h
  obtain ⟨vals₄, h₄, h⟩ := except_bind_eq_ok.mp h
  rw [orPanic_eq_ok] at h₁ h₂ h₃ h₄
  -- The total power is the sum of the changes' powers.
  have htvp : tvp = (valz.map (·.votingPower)).sum := by
    rw [verifyUpdates_empty hvu, (hperm.map _).sum_eq]
  have htvp_pos : 0 < tvp := htvp ▸ List.sum_pos _ (by simpa using hp) (by simpa using hne)
  -- Every new validator starts at the same priority.
  rw [computeNewPriorities_empty, applyUpdates_empty, applyRemovals_nil, Option.some.injEq] at h₁
  subst h₁
  obtain rfl := updateTotalVotingPower_eq_some h₂
  have hne₁ : updates.map (fun u => { u with proposerPriority := -(tvp + (tvp >>> 3)) }) ≠ [] := by
    simpa [← hperm.length_eq, ← List.length_eq_zero_iff] using hlen
  have hP : ∀ v ∈ updates.map (fun u => { u with proposerPriority := -(tvp + (tvp >>> 3)) }),
      v.proposerPriority = -(tvp + (tvp >>> 3)) := by
    simp
  have hb := abs_newPriority_le htvp_pos.le (htvp ▸ hT)
  have hT₁ : (ValidatorSet.mk (updates.map fun u => { u with proposerPriority := -(tvp + (tvp >>> 3)) }) none).totalVotingPower = tvp := by
    simp [totalVotingPower, Function.comp_def, htvp, (hperm.map _).sum_eq]
  rw [rescalePriorities_of_const hne₁ hP hb (by rw [hT₁, priorityWindowSizeFactor]; omega), Option.some.injEq] at h₃
  subst h₃
  rw [shiftByAvgProposerPriority_of_const hne₁ hP hb, Option.some.injEq] at h₄
  subst h₄
  cases h
  refine (List.perm_insertionSort _ _).trans ?_
  simpa [Function.comp_def] using hperm.map (fun v => { v with proposerPriority := 0 })

end ValidatorSet

open ValidatorSet

/-- A set that `NewValidatorSet` builds from validators with positive powers is those validators at priority
    zero, in some order, rotated once. -/
theorem newValidatorSet_eq {valz : List Validator} {V₀ : ValidatorSet} (hne : valz ≠ [])
    (hp : ∀ v ∈ valz, 0 < v.votingPower) (hT : (valz.map (·.votingPower)).sum ≤ maxTotalVotingPower)
    (h : newValidatorSet valz = some V₀) :
    ∃ base : List Validator, base.Perm (valz.map fun v => { v with proposerPriority := 0 }) ∧
      (ValidatorSet.mk base none).IncrementProposerPriority 1 = some V₀ := by
  unfold newValidatorSet at h
  split at h
  · cases h
  · next vals hvals =>
    refine ⟨vals.validators, updateWithChangeSet_empty hne hp hT hvals, ?_⟩
    rw [if_pos (List.length_pos_of_ne_nil hne)] at h
    -- The rotation does not read the proposer that the change set left.
    rw [← h, ← IncrementProposerPriority_setProposer _ vals.proposer]
    rfl

end CometBFT
