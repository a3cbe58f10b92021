import CometBFT.Types.ValidatorSet
import CometBFT.Lib.Rotation

/-! The proposer rotation of `types/validator_set.go` refines the weighted round robin of
    `CometBFT/Lib/Rotation.lean`. On a set whose addresses are distinct, whose priorities sum to zero
    and lie within twice the total power of each other, `IncrementProposerPriority(1)` neither rescales,
    nor shifts, nor clips: it is one election of the validator of greatest priority. -/

namespace CometBFT

namespace ValidatorSet

/-! ### The max and min scans -/

/-- The scan for the greatest priority ends at a priority of the list or at its start. -/
theorem foldl_max_spec (l : List Validator) (init : Int) :
    init ≤ l.foldl (fun m v => if v.proposerPriority > m then v.proposerPriority else m) init ∧
      (∀ v ∈ l, v.proposerPriority ≤ l.foldl (fun m v => if v.proposerPriority > m then v.proposerPriority else m) init) ∧
      (l.foldl (fun m v => if v.proposerPriority > m then v.proposerPriority else m) init = init ∨
        ∃ v ∈ l, v.proposerPriority = l.foldl (fun m v => if v.proposerPriority > m then v.proposerPriority else m) init) := by
  induction l generalizing init with
  | nil => simp
  | cons x l ih =>
    rw [List.foldl_cons]
    obtain ⟨h₁, h₂, h₃⟩ := ih (if x.proposerPriority > init then x.proposerPriority else init)
    have hx : init ≤ (if x.proposerPriority > init then x.proposerPriority else init) ∧
        x.proposerPriority ≤ (if x.proposerPriority > init then x.proposerPriority else init) := by
      split_ifs <;> omega
    refine ⟨hx.1.trans h₁, fun v hv => ?_, ?_⟩
    · rcases List.mem_cons.mp hv with rfl | hv
      · exact hx.2.trans h₁
      · exact h₂ v hv
    · rcases h₃ with h | ⟨v, hv, hv'⟩
      · split_ifs at h ⊢
        · exact Or.inr ⟨x, List.mem_cons_self, h.symm⟩
        · exact Or.inl h
      · exact Or.inr ⟨v, List.mem_cons_of_mem _ hv, hv'⟩

/-- The scan for the least priority ends at a priority of the list or at its start. -/
theorem foldl_min_spec (l : List Validator) (init : Int) :
    l.foldl (fun m v => if v.proposerPriority < m then v.proposerPriority else m) init ≤ init ∧
      (∀ v ∈ l, l.foldl (fun m v => if v.proposerPriority < m then v.proposerPriority else m) init ≤ v.proposerPriority) ∧
      (l.foldl (fun m v => if v.proposerPriority < m then v.proposerPriority else m) init = init ∨
        ∃ v ∈ l, v.proposerPriority = l.foldl (fun m v => if v.proposerPriority < m then v.proposerPriority else m) init) := by
  induction l generalizing init with
  | nil => simp
  | cons x l ih =>
    rw [List.foldl_cons]
    obtain ⟨h₁, h₂, h₃⟩ := ih (if x.proposerPriority < init then x.proposerPriority else init)
    have hx : (if x.proposerPriority < init then x.proposerPriority else init) ≤ init ∧
        (if x.proposerPriority < init then x.proposerPriority else init) ≤ x.proposerPriority := by
      split_ifs <;> omega
    refine ⟨h₁.trans hx.1, fun v hv => ?_, ?_⟩
    · rcases List.mem_cons.mp hv with rfl | hv
      · exact h₁.trans hx.2
      · exact h₂ v hv
    · rcases h₃ with h | ⟨v, hv, hv'⟩
      · split_ifs at h ⊢
        · exact Or.inr ⟨x, List.mem_cons_self, h.symm⟩
        · exact Or.inl h
      · exact Or.inr ⟨v, List.mem_cons_of_mem _ hv, hv'⟩

/-- Priorities within `2^61` of zero: their differences and sums with a power are int64s. -/
def Bounded (vals : ValidatorSet) : Prop := ∀ v ∈ vals.validators, |v.proposerPriority| ≤ 2 ^ 61

instance (vals : ValidatorSet) : Decidable vals.Bounded :=
  inferInstanceAs (Decidable (∀ v ∈ vals.validators, |v.proposerPriority| ≤ 2 ^ 61))

/-- On priorities within `b` of zero, with `2 * b` an int64, `computeMaxMinPriorityDiff` is the greatest
    of them less the least. -/
theorem computeMaxMinPriorityDiff_eq {vals : ValidatorSet} {b : Int} (hne : vals.validators ≠ [])
    (hb : ∀ v ∈ vals.validators, |v.proposerPriority| ≤ b) (hb2 : 2 * b ≤ maxInt64) :
    ∃ u ∈ vals.validators, ∃ v ∈ vals.validators,
      (∀ w ∈ vals.validators, v.proposerPriority ≤ w.proposerPriority ∧ w.proposerPriority ≤ u.proposerPriority) ∧
      vals.computeMaxMinPriorityDiff = some (u.proposerPriority - v.proposerPriority) := by
  obtain ⟨x, hx⟩ := List.exists_mem_of_ne_nil _ hne
  have hbx := abs_le.mp (hb x hx)
  obtain ⟨-, hmax, hu⟩ := foldl_max_spec vals.validators minInt64
  obtain ⟨-, hmin, hv⟩ := foldl_min_spec vals.validators maxInt64
  -- The scans end at priorities of the list: `x` lies between the int64 bounds and the scans.
  obtain ⟨u, hu, hu'⟩ : ∃ u ∈ vals.validators, u.proposerPriority =
      vals.validators.foldl (fun m v => if v.proposerPriority > m then v.proposerPriority else m) minInt64 := by
    rcases hu with h | h
    · have := hmax x hx
      have : minInt64 < -b := by simp only [minInt64, maxInt64] at hb2 ⊢; omega
      omega
    · exact h
  obtain ⟨v, hv, hv'⟩ : ∃ v ∈ vals.validators, v.proposerPriority =
      vals.validators.foldl (fun m v => if v.proposerPriority < m then v.proposerPriority else m) maxInt64 := by
    rcases hv with h | h
    · have := hmin x hx
      have : b < maxInt64 := by simp only [maxInt64] at hb2 ⊢; omega
      omega
    · exact h
  have hbu := abs_le.mp (hb u hu)
  have hbv := abs_le.mp (hb v hv)
  have hle : v.proposerPriority ≤ u.proposerPriority := hv' ▸ hmin u hu
  refine ⟨u, hu, v, hv, fun w hw => ⟨hv' ▸ hmin w hw, hu' ▸ hmax w hw⟩, ?_⟩
  have hw : wrapInt64 (u.proposerPriority - v.proposerPriority) = u.proposerPriority - v.proposerPriority := by
    simp only [maxInt64] at hb2
    exact wrapInt64_of_mem (by simp only [minInt64]; omega) (by simp only [maxInt64]; omega)
  simp only [computeMaxMinPriorityDiff, isNilOrEmpty, List.isEmpty_iff, hne, ↓reduceIte, ← hu', ← hv', hw]
  rw [if_neg (by omega)]

/-- On bounded priorities `computeMaxMinPriorityDiff` is the difference of two of them. -/
theorem computeMaxMinPriorityDiff_spec {vals : ValidatorSet} (hne : vals.validators ≠ []) (hb : vals.Bounded) :
    ∃ u ∈ vals.validators, ∃ v ∈ vals.validators,
      vals.computeMaxMinPriorityDiff = some (u.proposerPriority - v.proposerPriority) := by
  obtain ⟨u, hu, v, hv, -, h⟩ := computeMaxMinPriorityDiff_eq hne hb (by simp only [maxInt64]; norm_num)
  exact ⟨u, hu, v, hv, h⟩

/-! ### Rescaling and centring -/

@[simp] theorem mapPriorities_validators (vals : ValidatorSet) (f : Validator → Int) :
    (vals.mapPriorities f).validators = vals.validators.map fun val => { val with proposerPriority := f val } := rfl

@[simp] theorem mapPriorities_proposer (vals : ValidatorSet) (f : Validator → Int) :
    (vals.mapPriorities f).proposer = vals.proposer := rfl

theorem mapPriorities_mapPriorities (vals : ValidatorSet) (f g : Validator → Int) :
    (vals.mapPriorities f).mapPriorities g = vals.mapPriorities fun val => g { val with proposerPriority := f val } := by
  simp [mapPriorities, Function.comp_def]

theorem mapPriorities_of_forall {vals : ValidatorSet} {f : Validator → Int}
    (h : ∀ v ∈ vals.validators, f v = v.proposerPriority) : vals.mapPriorities f = vals := by
  obtain ⟨validators, proposer⟩ := vals
  simp only [mapPriorities, ValidatorSet.mk.injEq, and_true]
  conv_rhs => rw [← List.map_id validators]
  exact List.map_congr_left fun v hv => by rw [h v hv]; rfl

theorem mapPriorities_congr {vals : ValidatorSet} {f g : Validator → Int}
    (h : ∀ v ∈ vals.validators, f v = g v) : vals.mapPriorities f = vals.mapPriorities g := by
  simp only [mapPriorities, ValidatorSet.mk.injEq, and_true]
  exact List.map_congr_left fun v hv => by rw [h v hv]

/-- The priorities are at most `d` apart. -/
def Spread (vals : ValidatorSet) (d : Int) : Prop :=
  ∀ u ∈ vals.validators, ∀ v ∈ vals.validators, u.proposerPriority - v.proposerPriority ≤ d

instance (vals : ValidatorSet) (d : Int) : Decidable (vals.Spread d) :=
  inferInstanceAs (Decidable (∀ u ∈ vals.validators, ∀ v ∈ vals.validators, _))

/-- `RescalePriorities` leaves priorities that are at most `diffMax` apart as they are. -/
theorem rescalePriorities_of_spread {vals : ValidatorSet} {diffMax : Int} (hne : vals.validators ≠ [])
    (hb : vals.Bounded) (hd : 0 < diffMax) (hs : vals.Spread diffMax) : vals.rescalePriorities diffMax = some vals := by
  obtain ⟨u, hu, v, hv, hdiff⟩ := computeMaxMinPriorityDiff_spec hne hb
  have hle := hs u hu v hv
  simp only [rescalePriorities, isNilOrEmpty, List.isEmpty_iff, hne, ↓reduceIte, hdiff, Option.bind_eq_bind,
    Option.bind_some, not_le.mpr hd, gt_iff_lt, not_lt.mpr hle]

/-- Priorities that sum to zero have average zero. -/
theorem computeAvgProposerPriority_of_sum {vals : ValidatorSet} (hne : vals.validators ≠ [])
    (hsum : (vals.validators.map (·.proposerPriority)).sum = 0) : vals.computeAvgProposerPriority = some 0 := by
  simp [computeAvgProposerPriority, hsum, hne, minInt64, maxInt64]

/-- `shiftByAvgProposerPriority` leaves priorities that sum to zero as they are. -/
theorem shiftByAvgProposerPriority_of_sum {vals : ValidatorSet} (hne : vals.validators ≠ []) (hb : vals.Bounded)
    (hsum : (vals.validators.map (·.proposerPriority)).sum = 0) : vals.shiftByAvgProposerPriority = some vals := by
  simp only [shiftByAvgProposerPriority, isNilOrEmpty, List.isEmpty_iff, hne, ↓reduceIte,
    computeAvgProposerPriority_of_sum hne hsum, Option.bind_eq_bind, Option.bind_some, Option.pure_def]
  refine congrArg some (mapPriorities_of_forall fun v hv => ?_)
  have := abs_le.mp (hb v hv)
  exact safeSubClip_eq (by simp only [minInt64]; omega) (by simp only [maxInt64]; omega) |>.trans (sub_zero _)

/-! ### The election -/

/-- The fold of `getValWithMostPriority` from a first validator ends at a validator of the list ahead
    of every other one, when the addresses are distinct. -/
theorem foldlM_compare_spec : ∀ (l : List Validator) (r : Validator), (r :: l).Pairwise (·.address ≠ ·.address) →
    ∃ m, l.foldlM (fun res val => some <$> Validator.compareProposerPriority res val) (some r) = some (some m) ∧
      m ∈ r :: l ∧ ∀ v ∈ r :: l, v.address ≠ m.address → Validator.Ahead m v
  | [], r, _ => ⟨r, rfl, List.mem_singleton_self r, fun v hv hne => by simp_all⟩
  | x :: l, r, hd => by
    have hrx : r.address ≠ x.address := List.rel_of_pairwise_cons hd List.mem_cons_self
    obtain ⟨r', hr'⟩ := Option.isSome_iff_exists.mp (Validator.compareProposerPriority_isSome hrx)
    -- The winner of `r` and `x` goes on against the rest of the list.
    have hwin := Validator.compareProposerPriority_some hr'
    have hd' : (r' :: l).Pairwise (·.address ≠ ·.address) := by
      rcases hwin with ⟨rfl, -⟩ | ⟨rfl, -⟩
      · exact List.Pairwise.cons (fun a ha => List.rel_of_pairwise_cons hd (List.mem_cons_of_mem _ ha))
          (List.Pairwise.of_cons hd).of_cons
      · exact (List.Pairwise.of_cons hd)
    obtain ⟨m, hm, hmem, hahead⟩ := foldlM_compare_spec l r' hd'
    refine ⟨m, by simpa [List.foldlM_cons, hr'] using hm, ?_, fun v hv hvm => ?_⟩
    · rcases List.mem_cons.mp hmem with rfl | h
      · rcases hwin with ⟨rfl, -⟩ | ⟨rfl, -⟩ <;> simp
      · exact List.mem_cons_of_mem _ (List.mem_cons_of_mem _ h)
    · -- `v` is one of `r` and `x`, the winner `r'` or the loser, or in the rest of the list.
      have hr'_ahead : r'.address ≠ m.address → Validator.Ahead m r' := fun h => hahead r' List.mem_cons_self h
      have hm_eq : r'.address = m.address → m = r' := fun hrm => by
        rcases List.mem_cons.mp hmem with h | h
        · exact h
        · exact absurd hrm (List.rel_of_pairwise_cons hd' h)
      have hloser : ∀ u, u = r ∨ u = x → u ≠ r' → Validator.Ahead r' u := by
        rintro u (rfl | rfl) hu <;> rcases hwin with ⟨rfl, h⟩ | ⟨rfl, h⟩
        · exact absurd rfl hu
        · exact h
        · exact h
        · exact absurd rfl hu
      have hfirst : (v = r ∨ v = x) ∨ v ∈ l := by simpa [or_assoc] using hv
      rcases hfirst with hvrx | hv
      · by_cases hvr : v = r'
        · subst hvr
          exact hr'_ahead hvm
        by_cases hrm : r'.address = m.address
        · rw [hm_eq hrm]
          exact hloser v hvrx hvr
        · exact (hr'_ahead hrm).trans (hloser v hvrx hvr)
      · exact hahead v (List.mem_cons_of_mem _ hv) hvm

/-- The addresses of the set are distinct. -/
def Distinct (vals : ValidatorSet) : Prop := vals.validators.Pairwise (·.address ≠ ·.address)

instance (vals : ValidatorSet) : Decidable vals.Distinct :=
  inferInstanceAs (Decidable (vals.validators.Pairwise (·.address ≠ ·.address)))

theorem Distinct.eq_of_address {vals : ValidatorSet} (hd : vals.Distinct) {u v : Validator} (hu : u ∈ vals.validators)
    (hv : v ∈ vals.validators) (h : u.address = v.address) : u = v := by
  exact List.inj_on_of_nodup_map (List.pairwise_map.mpr hd) hu hv h

theorem distinct_mapPriorities {vals : ValidatorSet} (hd : vals.Distinct) (f : Validator → Int) :
    (vals.mapPriorities f).Distinct := by
  simpa [Distinct, List.pairwise_map] using hd

theorem getValWithMostPriority_spec {vals : ValidatorSet} (hne : vals.validators ≠ []) (hd : vals.Distinct) :
    ∃ m ∈ vals.validators, vals.getValWithMostPriority = some (some m) ∧
      ∀ v ∈ vals.validators, v.address ≠ m.address → Validator.Ahead m v := by
  obtain ⟨validators, proposer⟩ := vals
  cases validators with
  | nil => exact absurd rfl hne
  | cons r l =>
    obtain ⟨m, hm, hmem, hahead⟩ := foldlM_compare_spec l r hd
    exact ⟨m, hmem, by simpa [getValWithMostPriority, Validator.compareProposerPriority] using hm, hahead⟩

@[simp] theorem totalVotingPower_mapPriorities (vals : ValidatorSet) (f : Validator → Int) :
    (vals.mapPriorities f).totalVotingPower = vals.totalVotingPower := by
  simp [totalVotingPower, Function.comp_def]

/-- One election on bounded priorities and powers with distinct addresses: the validator `m` of
    greatest priority after the gain loses the total power, and nothing clips. -/
theorem incrementProposerPriority_spec {vals : ValidatorSet} (hne : vals.validators ≠ []) (hd : vals.Distinct)
    (hb : vals.Bounded) (hw : ∀ v ∈ vals.validators, 0 ≤ v.votingPower ∧ v.votingPower ≤ 2 ^ 60)
    (hT : vals.totalVotingPower ≤ 2 ^ 60) :
    ∃ m ∈ vals.validators, (∀ v ∈ vals.validators, v.proposerPriority + v.votingPower ≤ m.proposerPriority + m.votingPower) ∧
      vals.incrementProposerPriority = some (vals.mapPriorities (fun v =>
        v.proposerPriority + v.votingPower - if v.address = m.address then vals.totalVotingPower else 0),
        { m with proposerPriority := m.proposerPriority + m.votingPower - vals.totalVotingPower }) := by
  have hadd : vals.mapPriorities (fun val => safeAddClip val.proposerPriority val.votingPower) =
      vals.mapPriorities (fun val => val.proposerPriority + val.votingPower) := by
    refine mapPriorities_congr fun v hv => ?_
    have := abs_le.mp (hb v hv)
    have := hw v hv
    rw [safeAddClip_eq (by simp only [minInt64]; omega) (by simp only [maxInt64]; omega)]
  obtain ⟨m₁, hm₁, hget, hahead⟩ := getValWithMostPriority_spec
    (show (vals.mapPriorities fun val => val.proposerPriority + val.votingPower).validators ≠ [] by simpa using hne)
    (distinct_mapPriorities hd _)
  obtain ⟨m, hm, rfl⟩ : ∃ m ∈ vals.validators, { m with proposerPriority := m.proposerPriority + m.votingPower } = m₁ := by
    simpa using hm₁
  refine ⟨m, hm, fun v hv => ?_, ?_⟩
  · by_cases hvm : v.address = m.address
    · rw [hd.eq_of_address hv hm hvm]
    · exact (hahead { v with proposerPriority := v.proposerPriority + v.votingPower }
        (List.mem_map_of_mem hv) hvm).le
  · have hsub : safeSubClip (m.proposerPriority + m.votingPower) vals.totalVotingPower =
        m.proposerPriority + m.votingPower - vals.totalVotingPower := by
      have := abs_le.mp (hb m hm)
      have := hw m hm
      have : 0 ≤ vals.totalVotingPower := List.sum_nonneg (by simpa using fun v hv => (hw v hv).1)
      exact safeSubClip_eq (by simp only [minInt64]; omega) (by simp only [maxInt64]; omega)
    simp only [incrementProposerPriority, hadd, hget, totalVotingPower_mapPriorities, hsub,
      mapPriorities_mapPriorities, Option.pure_def, Option.bind_eq_bind, Option.bind_some]
    congr 2
    refine mapPriorities_congr fun v hv => ?_
    by_cases hvm : v.address = m.address
    · rw [hd.eq_of_address hv hm hvm]
      simp
    · simp [hvm]

/-! ### The stored proposer

The rotation reads the validators only: the proposer it stores is the one it elects last. -/

/-- The set with the stored proposer replaced. -/
def setProposer (vals : ValidatorSet) (proposer : Option Proposer) : ValidatorSet := { vals with proposer := proposer }

@[simp] theorem setProposer_validators (vals : ValidatorSet) (p : Option Proposer) :
    (vals.setProposer p).validators = vals.validators := rfl

theorem rescalePriorities_setProposer (vals : ValidatorSet) (p : Option Proposer) (diffMax : Int) :
    (vals.setProposer p).rescalePriorities diffMax = (vals.rescalePriorities diffMax).map (·.setProposer p) := by
  unfold rescalePriorities
  change (if vals.isNilOrEmpty then _ else _) = _
  split_ifs
  · rfl
  · rfl
  · change (vals.computeMaxMinPriorityDiff.bind _) = (vals.computeMaxMinPriorityDiff.bind _).map _
    cases vals.computeMaxMinPriorityDiff with
    | none => rfl
    | some diff =>
      simp only [Option.bind_some]
      split_ifs <;> rfl

theorem shiftByAvgProposerPriority_setProposer (vals : ValidatorSet) (p : Option Proposer) :
    (vals.setProposer p).shiftByAvgProposerPriority = vals.shiftByAvgProposerPriority.map (·.setProposer p) := by
  unfold shiftByAvgProposerPriority
  change (if vals.isNilOrEmpty then _ else _) = _
  split_ifs
  · rfl
  · change (vals.computeAvgProposerPriority.bind _) = (vals.computeAvgProposerPriority.bind _).map _
    cases vals.computeAvgProposerPriority <;> rfl

theorem incrementProposerPriority_setProposer (vals : ValidatorSet) (p : Option Proposer) :
    (vals.setProposer p).incrementProposerPriority =
      vals.incrementProposerPriority.map fun r => (r.1.setProposer p, r.2) := by
  unfold incrementProposerPriority
  change ((vals.mapPriorities _).getValWithMostPriority.bind _) = ((vals.mapPriorities _).getValWithMostPriority.bind _).map _
  rcases (vals.mapPriorities _).getValWithMostPriority with _ | _ | mostest <;> rfl

theorem incrementLoop_setProposer (times : Nat) (vals : ValidatorSet) (p : Option Proposer) (q : Option Validator) :
    incrementLoop times (vals.setProposer p) q = (incrementLoop times vals q).map fun r => (r.1.setProposer p, r.2) := by
  induction times generalizing vals q with
  | zero => rfl
  | succ times ih =>
    simp only [incrementLoop, incrementProposerPriority_setProposer]
    rcases vals.incrementProposerPriority with _ | ⟨vals', proposer⟩
    · rfl
    · exact ih vals' (some proposer)

/-- `IncrementProposerPriority` does not read the stored proposer. -/
theorem IncrementProposerPriority_setProposer (vals : ValidatorSet) (p : Option Proposer) (times : Int) :
    (vals.setProposer p).IncrementProposerPriority times = vals.IncrementProposerPriority times := by
  unfold IncrementProposerPriority
  change (if vals.isNilOrEmpty then _ else _) = _
  split_ifs
  · rfl
  · rfl
  · change ((vals.setProposer p).rescalePriorities (priorityWindowSizeFactor * vals.totalVotingPower)).bind _ =
      (vals.rescalePriorities (priorityWindowSizeFactor * vals.totalVotingPower)).bind _
    rw [rescalePriorities_setProposer]
    rcases vals.rescalePriorities (priorityWindowSizeFactor * vals.totalVotingPower) with _ | vals₁
    · rfl
    · simp only [Option.map_some, Option.bind_some, shiftByAvgProposerPriority_setProposer]
      rcases vals₁.shiftByAvgProposerPriority with _ | vals₂
      · rfl
      · simp only [Option.map_some, Option.bind_eq_bind, Option.bind_some, incrementLoop_setProposer]
        rcases incrementLoop times.toNat vals₂ none with _ | ⟨vals₃, proposer⟩ <;> rfl

/-! ### Positions

A rotation keeps the list's addresses, powers and order and changes its priorities only. The round
robin of `CometBFT/Lib/Rotation.lean` runs on the positions of the list, with the powers as weights. -/

/-- The validators of `base` with the priorities `σ`, position by position. -/
def withPriorities (base : List Validator) (σ : Fin base.length → Int) : List Validator :=
  List.ofFn fun i => { base.get i with proposerPriority := σ i }

/-- The powers of `base` by position: the weights of the round robin. -/
def powers (base : List Validator) (i : Fin base.length) : Int := (base.get i).votingPower

/-- The priorities of `base` by position. -/
def priorities (base : List Validator) (i : Fin base.length) : Int := (base.get i).proposerPriority

/-- What a rotation needs of its validators: distinct addresses, nonnegative powers, and a positive total
    within `MaxTotalVotingPower`. -/
structure WellFormed (base : List Validator) : Prop where
  distinct : (base.map (·.address)).Nodup
  nonneg : ∀ v ∈ base, 0 ≤ v.votingPower
  pos : 0 < (base.map (·.votingPower)).sum
  le_max : (base.map (·.votingPower)).sum ≤ maxTotalVotingPower

section Positions

variable {base : List Validator} {σ : Fin base.length → Int}

theorem mem_withPriorities {v : Validator} :
    v ∈ withPriorities base σ ↔ ∃ i, { base.get i with proposerPriority := σ i } = v := List.mem_ofFn

theorem withPriorities_priorities : withPriorities base (priorities base) = base := by
  conv_rhs => rw [← List.ofFn_get base]
  rfl

theorem map_withPriorities (f : Validator → Int) :
    (withPriorities base σ).map (fun v => { v with proposerPriority := f v }) =
      withPriorities base fun i => f { base.get i with proposerPriority := σ i } := by
  simp only [withPriorities, List.map_ofFn]
  rfl

theorem sum_withPriorities : ((withPriorities base σ).map (·.proposerPriority)).sum = ∑ i, σ i := by
  simp only [withPriorities, List.map_ofFn, List.sum_ofFn]
  rfl

theorem total_powers : Rotation.total (powers base) = (base.map (·.votingPower)).sum := by
  conv_rhs => rw [← List.ofFn_get base, List.map_ofFn, List.sum_ofFn]
  rfl

theorem sum_priorities : ∑ i, priorities base i = (base.map (·.proposerPriority)).sum := by
  conv_rhs => rw [← List.ofFn_get base, List.map_ofFn, List.sum_ofFn]
  rfl

theorem totalVotingPower_withPriorities (p : Option Proposer) :
    (ValidatorSet.mk (withPriorities base σ) p).totalVotingPower = Rotation.total (powers base) := by
  simp only [totalVotingPower, withPriorities, List.map_ofFn, List.sum_ofFn, Rotation.total]
  rfl

theorem address_withPriorities : (withPriorities base σ).map (·.address) = base.map (·.address) := by
  conv_rhs => rw [← List.ofFn_get base]
  simp only [withPriorities, List.map_ofFn]
  rfl

/-- On distinct addresses a position is determined by its address. -/
theorem eq_of_address (hd : (base.map (·.address)).Nodup) {i j : Fin base.length}
    (h : (base.get i).address = (base.get j).address) : i = j :=
  (hd.of_map _).get_inj_iff.mp (List.inj_on_of_nodup_map hd (List.get_mem _ _) (List.get_mem _ _) h)

theorem WellFormed.ne_nil (hb : WellFormed base) : base ≠ [] := by
  rintro rfl
  simpa using hb.pos

theorem WellFormed.total_pos (hb : WellFormed base) : 0 < Rotation.total (powers base) :=
  total_powers ▸ hb.pos

/-- Each power lies between zero and the total, which is at most `2^60`. -/
theorem WellFormed.powers_le (hb : WellFormed base) (i : Fin base.length) :
    0 ≤ powers base i ∧ powers base i ≤ Rotation.total (powers base) ∧ Rotation.total (powers base) ≤ 2 ^ 60 := by
  have hnonneg : ∀ j ∈ Finset.univ, 0 ≤ powers base j := fun j _ => hb.nonneg _ (List.get_mem base j)
  have hmax := hb.le_max
  rw [maxTotalVotingPower_eq, ← total_powers] at hmax
  exact ⟨hnonneg i (Finset.mem_univ i), Finset.single_le_sum hnonneg (Finset.mem_univ i), by omega⟩

end Positions

/-! ### One call is one election -/

/-- `IncrementProposerPriority(1)` on priorities that sum to zero and lie within twice the total power of
    each other neither rescales, nor shifts, nor clips: it is one election of the round robin. -/
theorem IncrementProposerPriority_one_eq {base : List Validator} (hb : WellFormed base)
    {σ : Fin base.length → Int} (hsum : ∑ i, σ i = 0) (hs : ∀ i j, σ i - σ j ≤ 2 * Rotation.total (powers base))
    (p : Option Proposer) :
    ∃ k, Rotation.IsElected (powers base) σ k ∧
      (ValidatorSet.mk (withPriorities base σ) p).IncrementProposerPriority 1 =
        some ⟨withPriorities base (Rotation.elect (powers base) σ k), some (.member (base.get k).address)⟩ := by
  have hne := hb.ne_nil
  have : Nonempty (Fin base.length) := ⟨⟨0, List.length_pos_of_ne_nil hne⟩⟩
  obtain ⟨-, -, hTmax⟩ := hb.powers_le (Classical.arbitrary _)
  have hTpos := hb.total_pos
  -- The set of the call meets every hypothesis of `incrementProposerPriority_spec`.
  set V := ValidatorSet.mk (withPriorities base σ) p with hV
  have hVT : V.totalVotingPower = Rotation.total (powers base) := totalVotingPower_withPriorities p
  have hVne : V.validators ≠ [] := by simpa [hV, withPriorities] using hne
  have hVd : V.Distinct := by
    have hd : ((withPriorities base σ).map (·.address)).Nodup := by
      rw [address_withPriorities]
      exact hb.distinct
    exact List.pairwise_map.mp hd
  have hVb : V.Bounded := fun v hv => by
    obtain ⟨i, rfl⟩ := mem_withPriorities.mp hv
    have := Rotation.abs_le_of_spread hsum hs i
    exact this.trans (by omega)
  have hVs : V.Spread (priorityWindowSizeFactor * V.totalVotingPower) := by
    intro u hu v hv
    obtain ⟨i, rfl⟩ := mem_withPriorities.mp hu
    obtain ⟨j, rfl⟩ := mem_withPriorities.mp hv
    exact hVT ▸ hs i j
  have hVw : ∀ v ∈ V.validators, 0 ≤ v.votingPower ∧ v.votingPower ≤ 2 ^ 60 := by
    intro v hv
    obtain ⟨i, rfl⟩ := mem_withPriorities.mp hv
    obtain ⟨h₁, h₂, h₃⟩ := hb.powers_le i
    exact ⟨h₁, h₂.trans h₃⟩
  obtain ⟨m, hm, hmax, hinc⟩ := incrementProposerPriority_spec hVne hVd hVb hVw (hVT ▸ hTmax)
  obtain ⟨k, rfl⟩ := mem_withPriorities.mp hm
  refine ⟨k, fun i => hmax _ (mem_withPriorities.mpr ⟨i, rfl⟩), ?_⟩
  have hrescale := rescalePriorities_of_spread hVne hVb (by simp only [hVT, priorityWindowSizeFactor]; omega) hVs
  have hshift := shiftByAvgProposerPriority_of_sum hVne hVb (sum_withPriorities.trans hsum)
  simp only [IncrementProposerPriority, isNilOrEmpty, List.isEmpty_iff, hVne, ↓reduceIte, hrescale, hshift,
    Option.bind_eq_bind, Option.bind_some, Int.reduceLE, Int.toNat_one, incrementLoop, hinc, Option.pure_def]
  -- The elected address is the elected position.
  have hsel : ∀ i, ((base.get i).address = (base.get k).address) ↔ i = k :=
    fun i => ⟨eq_of_address hb.distinct, fun h => h ▸ rfl⟩
  simp only [mapPriorities, hV, map_withPriorities, hsel, totalVotingPower_withPriorities]
  rfl

/-! ### Runs -/

/-- `n` successive calls `IncrementProposerPriority(1)`, as block execution makes them once per
    height. -/
def rotate : Nat → ValidatorSet → Option ValidatorSet
  | 0, vals => some vals
  | n + 1, vals => (vals.IncrementProposerPriority 1).bind (rotate n)

theorem rotate_add (m n : Nat) (vals : ValidatorSet) : vals.rotate (m + n) = (vals.rotate m).bind (rotate n) := by
  induction m generalizing vals with
  | zero => simp [rotate]
  | succ m ih =>
    rw [show m + 1 + n = (m + n) + 1 by omega]
    simp only [rotate]
    cases vals.IncrementProposerPriority 1 with
    | none => rfl
    | some vals' => exact ih vals'

/-- The last call of a run. -/
theorem rotate_succ_right (n : Nat) (vals : ValidatorSet) :
    vals.rotate (n + 1) = (vals.rotate n).bind (·.IncrementProposerPriority 1) := by
  rw [rotate_add]
  cases vals.rotate n with
  | none => rfl
  | some vals' => simp [rotate]

/-- The refinement: while the priorities stay within twice the total power of each other, successive calls
    `IncrementProposerPriority(1)` on a well-formed set whose priorities sum to zero are a run of the round
    robin from its priorities, and each call stores the validator it elects. -/
theorem rotate_isRun {base : List Validator} (hb : WellFormed base) (hsum : (base.map (·.proposerPriority)).sum = 0)
    (p : Option Proposer) (N : Nat)
    (hs : ∀ t < N, ∀ V ∈ (ValidatorSet.mk base p).rotate t, V.Spread (2 * (base.map (·.votingPower)).sum)) :
    ∃ c k, Rotation.IsRun (powers base) c k N ∧ c 0 = priorities base ∧
      (∀ t ≤ N, ∃ q, (ValidatorSet.mk base p).rotate t = some ⟨withPriorities base (c t), q⟩) ∧
      ∀ t < N, ((ValidatorSet.mk base p).rotate (t + 1)).bind (·.proposer) = some (.member (base.get (k t)).address) := by
  induction N with
  | zero =>
    refine ⟨fun _ => priorities base, fun _ => ⟨0, List.length_pos_of_ne_nil hb.ne_nil⟩,
      ⟨fun t ht => absurd ht (Nat.not_lt_zero t), fun t ht => absurd ht (Nat.not_lt_zero t)⟩, rfl,
      fun t ht => ⟨p, ?_⟩, fun t ht => absurd ht (Nat.not_lt_zero t)⟩
    rw [Nat.le_zero.mp ht, withPriorities_priorities]
    rfl
  | succ N ih =>
    obtain ⟨c, k, hrun, hc₀, hstate, hprop⟩ := ih fun t ht => hs t (by omega)
    obtain ⟨q, hq⟩ := hstate N le_rfl
    -- The priorities after `N` calls still sum to zero, and the hypothesis keeps them within `2T`.
    have hsumN : ∑ i, c N i = 0 := by rw [hrun.sum_eq le_rfl, hc₀, sum_priorities, hsum]
    have hsN : ∀ i j, c N i - c N j ≤ 2 * Rotation.total (powers base) := fun i j => by
      rw [total_powers]
      exact hs N (by omega) _ hq _ (mem_withPriorities.mpr ⟨i, rfl⟩) _ (mem_withPriorities.mpr ⟨j, rfl⟩)
    obtain ⟨k', he, hstep⟩ := IncrementProposerPriority_one_eq hb hsumN hsN q
    have hlast : (ValidatorSet.mk base p).rotate (N + 1) = some ⟨withPriorities base (Rotation.elect (powers base) (c N) k'),
        some (.member (base.get k').address)⟩ := by
      rw [rotate_succ_right, hq, Option.bind_some, hstep]
    refine ⟨_, _, hrun.snoc he, by simp [hc₀], fun t ht => ?_, fun t ht => ?_⟩
    · rcases Nat.lt_or_eq_of_le ht with ht | rfl
      · obtain ⟨q', hq'⟩ := hstate t (by omega)
        exact ⟨q', by simp [hq', show t ≤ N by omega]⟩
      · exact ⟨some (.member (base.get k').address), by simp [hlast]⟩
    · rcases Nat.lt_succ_iff_lt_or_eq.mp ht with ht | rfl
      · simp [hprop t ht, ht]
      · simp [hlast]

end ValidatorSet

end CometBFT
