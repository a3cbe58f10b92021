import CometBFT.Types.ChangeSet

/-! What the proposer rotation of `types/validator_set.go` promises its callers.

    `IncrementProposerPriority(times)` rescales and centres the priorities once per call, before its
    `times` elections. The rescale divides the priorities as soon as they are more than twice the
    total power apart, and a run of elections on a stable set can spread them that far. So a call with
    `times = a + b` is not two calls with `a` and `b` (which `LoadValidators` in
    `internal/state/store.go` and the round skips of `enterNewRound` take for granted), and the
    rotation of a stable set is not periodic once the rescale fires. -/

namespace CometBFT

open ValidatorSet

/-! ### Batched and stepwise rotation -/

/-- Three validators of power 6, after one update to powers 1 and 2 for the first two: their
    priorities are `-12, 6, 6`, twice the total power apart. -/
def splitRotationSet : Option ValidatorSet :=
  (newValidatorSet [⟨[0], 6, 0⟩, ⟨[1], 6, 0⟩, ⟨[2], 6, 0⟩]).bind fun vals =>
    (vals.UpdateWithChangeSet [⟨[0], 1, 0⟩, ⟨[1], 2, 0⟩]).toOption

/-- Two calls `IncrementProposerPriority(1)` elect the validator `[2]` at the second height, one call
    `IncrementProposerPriority(2)` elects `[1]`: the first election spreads the priorities to 19, more
    than `2 * 9`, and only the second call of the first path rescales them. -/
theorem incrementProposerPriority_split_ne :
    (splitRotationSet.bind fun vals => (vals.IncrementProposerPriority 1).bind (·.IncrementProposerPriority 1)).map
        (·.proposer.map (·.address)) = some (some [2]) ∧
      (splitRotationSet.bind (·.IncrementProposerPriority 2)).map (·.proposer.map (·.address)) = some (some [1]) := by
  decide +kernel

/-! ### Stable sets -/

set_option maxRecDepth 20000 in
/-- The rotation of a stable set of ten validators with powers `46, 46, 46, 46, 6, 6, 6, 6, 1, 2`
    (total 211) is not back at its start after 211 elections: at the sixtieth call the priorities are
    more than 422 apart and the rescale halves them. -/
theorem rotate_stable_not_periodic :
    let valz : List Validator := [⟨[0], 46, 0⟩, ⟨[1], 46, 0⟩, ⟨[2], 46, 0⟩, ⟨[3], 46, 0⟩, ⟨[4], 6, 0⟩,
      ⟨[5], 6, 0⟩, ⟨[6], 6, 0⟩, ⟨[7], 6, 0⟩, ⟨[8], 1, 0⟩, ⟨[9], 2, 0⟩]
    (newValidatorSet valz).bind (rotate 211) ≠ newValidatorSet valz := by
  decide +kernel

/-- On a stable set built by `NewValidatorSet` the rotation is the round robin as long as the priorities
    stay within twice the total power `T` of each other: after `T` calls every priority is back where it
    started, and every window of `T` elections elects each validator as often as its power. -/
theorem newValidatorSet_rotate_fair {valz : List Validator} {V₀ : ValidatorSet}
    (hd : (valz.map (·.address)).Nodup) (hp : ∀ v ∈ valz, 0 < v.votingPower)
    (hT : (valz.map (·.votingPower)).sum ≤ maxTotalVotingPower) (h₀ : newValidatorSet valz = some V₀)
    (hs : ∀ n < Int.toNat (valz.map (·.votingPower)).sum, ∀ V ∈ V₀.rotate n,
      V.Spread (2 * (valz.map (·.votingPower)).sum)) :
    V₀.rotate (Int.toNat (valz.map (·.votingPower)).sum) = some V₀ ∧
      ∀ v ∈ valz, ∀ s, (Rotation.count (fun t => ((V₀.rotate t).bind (·.proposer)).map (·.address))
        (some v.address) s (Int.toNat (valz.map (·.votingPower)).sum) : Int) = v.votingPower := by
  by_cases hnil : valz = []
  · subst hnil
    simp [rotate]
  have hne : valz ≠ [] := hnil
  obtain ⟨base, hperm, hV₀⟩ := newValidatorSet_eq hne hp hT h₀
  set T := (valz.map (·.votingPower)).sum with hTdef
  -- The validators at priority zero, in the order `NewValidatorSet` left them.
  have hbsum : (base.map (·.votingPower)).sum = T := by
    rw [(hperm.map _).sum_eq, List.map_map]
    rfl
  have hzero : ∀ v ∈ base, v.proposerPriority = 0 := fun v hv => by
    obtain ⟨w, -, rfl⟩ := List.mem_map.mp (hperm.subset hv)
    rfl
  have hb : WellFormed base :=
    { distinct := by
        rw [(hperm.map _).nodup_iff, List.map_map]
        exact hd
      nonneg := fun v hv => by
        obtain ⟨w, hw, rfl⟩ := List.mem_map.mp (hperm.subset hv)
        exact (hp w hw).le
      pos := hbsum ▸ List.sum_pos _ (by simpa using hp) (by simpa using hne)
      le_max := hbsum ▸ hT }
  have hsum : (base.map (·.proposerPriority)).sum = 0 := by
    rw [List.map_congr_left hzero]
    simp
  -- The calls from `V₀` are the calls from the set at priority zero after its first.
  have hshift : ∀ n, (ValidatorSet.mk base none).rotate (n + 1) = V₀.rotate n := fun n => by
    rw [Nat.add_comm, rotate_add]
    simp [rotate, hV₀]
  have hs' : ∀ t < T.toNat, ∀ V ∈ (ValidatorSet.mk base none).rotate t,
      V.Spread (2 * (base.map (·.votingPower)).sum) := by
    intro t ht V hV
    rw [hbsum]
    cases t with
    | zero =>
      obtain rfl : V = ⟨base, none⟩ := (Option.some.inj hV).symm
      intro u hu v hv
      rw [hzero u hu, hzero v hv]
      have := hb.total_pos
      rw [total_powers, hbsum] at this
      omega
    | succ t =>
      rw [hshift] at hV
      exact hs t (by omega) V hV
  obtain ⟨c, k, hrun, hc₀, hstate, hprop⟩ := rotate_isRun hb hsum none T.toNat hs'
  have htot : Rotation.total (powers base) = T := total_powers.trans hbsum
  have hc0 : c 0 = 0 := by
    rw [hc₀]
    funext i
    exact hzero _ (List.get_mem _ _)
  -- After `T` elections the run is back at zero.
  have hcT : c T.toNat = c 0 := by
    have := hrun.return_zero (fun i => hb.nonneg _ (List.get_mem _ _)) hb.total_pos (by rw [htot]) hc0
    rw [htot] at this
    rw [this, hc0]
  have hperiod : V₀.rotate T.toNat = some V₀ := by
    rw [← hshift, rotate_succ_right]
    obtain ⟨q, hq⟩ := hstate T.toNat le_rfl
    rw [hq, Option.bind_some, hcT, hc₀, withPriorities_priorities]
    exact (IncrementProposerPriority_setProposer ⟨base, none⟩ q 1).trans hV₀
  refine ⟨hperiod, fun v hv s => ?_⟩
  obtain ⟨i, hi⟩ := List.mem_iff_get.mp (hperm.symm.subset (List.mem_map_of_mem hv))
  -- The observed proposers repeat with period `T`, and in the first window they are the run's.
  have hrep : ∀ t, ((V₀.rotate (t + T.toNat)).bind (·.proposer)).map (·.address) =
      ((V₀.rotate t).bind (·.proposer)).map (·.address) := fun t => by
    rw [Nat.add_comm, rotate_add, hperiod, Option.bind_some]
  have hobs : ∀ t < T.toNat, (((V₀.rotate (0 + t)).bind (·.proposer)).map (·.address) = some v.address ↔
      k (0 + t) = i) := fun t ht => by
    rw [Nat.zero_add, ← hshift, hprop t ht, Option.map_some, Option.some.injEq]
    constructor
    · intro h
      exact eq_of_address hb.distinct (h.trans (congrArg (·.address) hi).symm)
    · rintro rfl
      exact congrArg (·.address) hi
  rw [Rotation.count_periodic hrep, Rotation.count_congr hobs]
  have hw := hrun.count_eq_weight (fun i => hb.nonneg _ (List.get_mem _ _)) hb.total_pos (by rw [htot]) hc0 i
  rw [htot] at hw
  rw [hw, powers, hi]

/-- Validators of powers 1 and 2 stay within twice their total power of each other: the rotation comes back
    after three calls and elects them once and twice in every window of three. -/
theorem newValidatorSet_rotate_fair_pair :
    rotate 3 ⟨[⟨[1], 2, -1⟩, ⟨[0], 1, 1⟩], some (.member [1])⟩ = some ⟨[⟨[1], 2, -1⟩, ⟨[0], 1, 1⟩], some (.member [1])⟩ ∧
      ∀ v ∈ ([⟨[0], 1, 0⟩, ⟨[1], 2, 0⟩] : List Validator), ∀ s,
        (Rotation.count (fun t => ((rotate t ⟨[⟨[1], 2, -1⟩, ⟨[0], 1, 1⟩], some (.member [1])⟩).bind (·.proposer)).map
          (·.address)) (some v.address) s 3 : Int) = v.votingPower := by
  have h₀ : newValidatorSet [⟨[0], 1, 0⟩, ⟨[1], 2, 0⟩] = some ⟨[⟨[1], 2, -1⟩, ⟨[0], 1, 1⟩], some (.member [1])⟩ := by
    decide +kernel
  exact newValidatorSet_rotate_fair (by decide) (by decide) (by decide) h₀ (by decide +kernel)

end CometBFT
