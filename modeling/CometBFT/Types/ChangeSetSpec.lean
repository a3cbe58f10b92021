import CometBFT.Types.ChangeSet
import CometBFT.Lib.SortedKeys
import CometBFT.Lib.Rescale

/-! What `UpdateWithChangeSet` does to a validator set, stated against the map it stands for.

    A change list names addresses with new powers; power zero removes. `processChanges` accepts a list
    with distinct, non-empty addresses and powers in `[0, MaxTotalVotingPower]`, and splits it, sorted by
    address, into updates and removals. On a set with distinct addresses and positive powers the
    later steps then fail exactly when a removal is not in the set, when nothing would be left, or when
    the new total passes `MaxTotalVotingPower`; otherwise they merge the updates into the set sorted by
    address, drop the removals, rescale and centre the priorities, and sort by power. -/

namespace CometBFT

/-- A validator's address and power: its entry in the map a validator set stands for. -/
def Validator.entry (v : Validator) : Address × Int := (v.address, v.votingPower)

namespace ValidatorSet

open SortedKeys

/-! ### Sorting by address -/

theorem byAddress_iff {a b : Validator} : byAddress a b = true ↔ KeyLE (·.address) a b := by
  simp [byAddress, KeyLE]

theorem pairwise_sortByAddress (l : List Validator) :
    (l.insertionSort fun a b => byAddress a b).Pairwise (KeyLE (·.address)) := by
  have : Std.Total fun a b : Validator => byAddress a b = true :=
    ⟨fun a b => by simpa only [byAddress_iff] using Std.Total.total (r := KeyLE (·.address)) a b⟩
  have : IsTrans Validator fun a b => byAddress a b = true :=
    ⟨fun _ _ _ h₁ h₂ => byAddress_iff.mpr (Std.TransCmp.le_trans (byAddress_iff.mp h₁) (byAddress_iff.mp h₂))⟩
  exact (List.pairwise_insertionSort _ l).imp byAddress_iff.mp

/-- The nil address `processChanges` starts from is below every address. -/
theorem compare_nil_ne_gt (a : Address) : compare ([] : Address) a ≠ .gt := by
  cases a with
  | nil => decide
  | cons b t => simp [compare, List.compareLex]

/-! ### `processChanges` -/

/-- What `processChanges` demands of a change list: distinct addresses, none of them the nil address it
    starts its scan from, and powers in `[0, MaxTotalVotingPower]`. -/
structure Accepts (changes : List Validator) : Prop where
  nodup : (changes.map (·.address)).Nodup
  ne_nil : ∀ c ∈ changes, c.address ≠ []
  power : ∀ c ∈ changes, 0 ≤ c.votingPower ∧ c.votingPower ≤ maxTotalVotingPower

/-- The scan succeeds when neighbouring addresses differ and every power is in range, and then splits the
    list by power. -/
theorem processChangesLoop_ok : ∀ {l : List Validator} {prevAddr : Address} {U₀ D₀ U D : List Validator},
    processChangesLoop l prevAddr U₀ D₀ = .ok (U, D) ↔
      List.IsChain (· ≠ ·) (prevAddr :: l.map (·.address)) ∧
      (∀ c ∈ l, 0 ≤ c.votingPower ∧ c.votingPower ≤ maxTotalVotingPower) ∧
      U = U₀ ++ l.filter (fun c => 0 < c.votingPower) ∧ D = D₀ ++ l.filter (fun c => c.votingPower = 0)
  | [], _, _, _, _, _ => by
    simp [processChangesLoop, eq_comm]
  | c :: l, prevAddr, U₀, D₀, U, D => by
    by_cases hdup : c.address = prevAddr
    · simp [processChangesLoop, hdup]
    by_cases hneg : c.votingPower < 0
    · simp [processChangesLoop, hdup, hneg]
    by_cases hmax : c.votingPower > maxTotalVotingPower
    · simp [processChangesLoop, hdup, hneg, hmax]
    have hc : 0 ≤ c.votingPower ∧ c.votingPower ≤ maxTotalVotingPower := by omega
    by_cases hzero : c.votingPower = 0
    · rw [processChangesLoop, if_neg hdup, if_neg hneg, if_neg hmax, if_pos hzero, processChangesLoop_ok]
      simp [List.isChain_cons_cons, Ne.symm hdup, hzero, hc.1.trans hc.2]
    · have hpos : 0 < c.votingPower := by omega
      rw [processChangesLoop, if_neg hdup, if_neg hneg, if_neg hmax, if_neg hzero, processChangesLoop_ok]
      simp [List.isChain_cons_cons, Ne.symm hdup, hc, hzero, hpos]

/-- `processChanges` accepts exactly the lists `Accepts` describes, and returns them sorted by address and
    split by power. -/
theorem processChanges_ok {C U D : List Validator} :
    processChanges C = .ok (U, D) ↔ Accepts C ∧
      U = (C.insertionSort fun a b => byAddress a b).filter (fun c => 0 < c.votingPower) ∧
      D = (C.insertionSort fun a b => byAddress a b).filter (fun c => c.votingPower = 0) := by
  set S := C.insertionSort fun a b => byAddress a b with hS
  have hp : S.Perm C := List.perm_insertionSort _ C
  have hs := pairwise_sortByAddress C
  -- the nil address heads a list that is still sorted, so the scan's chain is the distinctness of it
  have hchain : List.IsChain (· ≠ ·) ([] :: S.map (·.address)) ↔
      (∀ c ∈ C, c.address ≠ []) ∧ (C.map (·.address)).Nodup := by
    have hsorted : ([] :: S.map (·.address)).Pairwise (KeyLE id) :=
      List.pairwise_cons.mpr ⟨fun a _ => compare_nil_ne_gt a, List.pairwise_map.mpr hs⟩
    have := isChain_ne_iff hsorted
    simp only [id, List.map_id] at this
    rw [this, List.nodup_cons, (hp.map _).nodup_iff]
    simp [hp.mem_iff]
  have hpow : (∀ c ∈ S, 0 ≤ c.votingPower ∧ c.votingPower ≤ maxTotalVotingPower) ↔
      ∀ c ∈ C, 0 ≤ c.votingPower ∧ c.votingPower ≤ maxTotalVotingPower :=
    forall_congr' fun c => imp_congr_left hp.mem_iff
  unfold processChanges
  rw [processChangesLoop_ok, hchain, hpow]
  simp only [List.nil_append]
  constructor
  · rintro ⟨⟨hne, hnd⟩, hpow, hU, hD⟩
    exact ⟨⟨hnd, hne, hpow⟩, hU, hD⟩
  · rintro ⟨⟨hnd, hne, hpow⟩, hU, hD⟩
    exact ⟨⟨hne, hnd⟩, hpow, hU, hD⟩

/-! ### The checks against the set -/

/-- A validator set as the code keeps one: distinct addresses, positive powers, a total within
    `MaxTotalVotingPower`, and priorities within `Bounded`. -/
structure Valid (vals : ValidatorSet) : Prop where
  distinct : vals.Distinct
  pos : ∀ v ∈ vals.validators, 0 < v.votingPower
  total_le : vals.totalVotingPower ≤ maxTotalVotingPower
  bounded : vals.Bounded

instance (vals : ValidatorSet) : Decidable vals.Valid :=
  decidable_of_iff (vals.Distinct ∧ (∀ v ∈ vals.validators, 0 < v.votingPower) ∧
      vals.totalVotingPower ≤ maxTotalVotingPower ∧ vals.Bounded)
    ⟨fun ⟨h₁, h₂, h₃, h₄⟩ => ⟨h₁, h₂, h₃, h₄⟩, fun ⟨h₁, h₂, h₃, h₄⟩ => ⟨h₁, h₂, h₃, h₄⟩⟩

/-- A validator set as the code builds one, with any int64 priorities: distinct addresses, positive powers
    and a total within `MaxTotalVotingPower`. -/
structure Proper (vals : ValidatorSet) : Prop where
  distinct : vals.Distinct
  pos : ∀ v ∈ vals.validators, 0 < v.votingPower
  total_le : vals.totalVotingPower ≤ maxTotalVotingPower
  int64 : ∀ v ∈ vals.validators, minInt64 ≤ v.proposerPriority ∧ v.proposerPriority ≤ maxInt64

instance (vals : ValidatorSet) : Decidable vals.Proper :=
  decidable_of_iff (vals.Distinct ∧ (∀ v ∈ vals.validators, 0 < v.votingPower) ∧
      vals.totalVotingPower ≤ maxTotalVotingPower ∧
      ∀ v ∈ vals.validators, minInt64 ≤ v.proposerPriority ∧ v.proposerPriority ≤ maxInt64)
    ⟨fun ⟨h₁, h₂, h₃, h₄⟩ => ⟨h₁, h₂, h₃, h₄⟩, fun ⟨h₁, h₂, h₃, h₄⟩ => ⟨h₁, h₂, h₃, h₄⟩⟩

theorem Valid.proper {vals : ValidatorSet} (hV : vals.Valid) : vals.Proper where
  distinct := hV.distinct
  pos := hV.pos
  total_le := hV.total_le
  int64 v hv := by
    have := abs_le.mp (hV.bounded v hv)
    simp only [minInt64, maxInt64]
    constructor <;> linarith

/-- The power the set gives an address, zero when it has no validator there. -/
def powerOf (vals : ValidatorSet) (a : Address) : Int := ((vals.getByAddress a).map (·.votingPower)).getD 0

theorem getByAddress_eq_none {vals : ValidatorSet} {a : Address} :
    vals.getByAddress a = none ↔ a ∉ vals.validators.map (·.address) := by
  simp [getByAddress, List.find?_eq_none]

theorem delta_eq (u : Validator) (vals : ValidatorSet) : delta u vals = u.votingPower - powerOf vals u.address := by
  unfold delta powerOf
  cases vals.getByAddress u.address <;> simp

/-- With distinct addresses, an address's power is the sum of the powers at it. -/
theorem powerOf_eq_sum {vals : ValidatorSet} (hd : vals.Distinct) (a : Address) :
    powerOf vals a = (vals.validators.map fun v => if v.address = a then v.votingPower else 0).sum := by
  obtain ⟨validators, proposer⟩ := vals
  unfold Distinct at hd
  simp only [powerOf, getByAddress] at hd ⊢
  induction validators with
  | nil => simp
  | cons v l ih =>
    obtain ⟨hv, hl⟩ := List.pairwise_cons.mp hd
    by_cases hva : v.address = a
    · -- no other validator sits at `a`
      have hrest : (l.map fun w => if w.address = a then w.votingPower else 0).sum = 0 :=
        List.sum_eq_zero fun x hx => by
          obtain ⟨w, hw, rfl⟩ := List.mem_map.mp hx
          have hwa : w.address ≠ a := fun h => hv w hw (hva.trans h.symm)
          simp [hwa]
      simp [hva, hrest]
    · simp [hva, ih hl]

theorem powerOf_nonneg {vals : ValidatorSet} (hpos : ∀ v ∈ vals.validators, 0 < v.votingPower) (a : Address) :
    0 ≤ powerOf vals a := by
  unfold powerOf
  cases hg : vals.getByAddress a with
  | none => rfl
  | some v => exact (hpos v (List.mem_of_find?_eq_some hg)).le

/-- With distinct addresses, a validator is the one found at its address. -/
theorem getByAddress_of_mem {vals : ValidatorSet} (hd : vals.Distinct) {v : Validator} (hv : v ∈ vals.validators) :
    vals.getByAddress v.address = some v := by
  cases hg : vals.getByAddress v.address with
  | none => exact absurd (List.mem_map_of_mem hv) (getByAddress_eq_none.mp hg)
  | some w =>
    have hw := List.mem_of_find?_eq_some hg
    have hwa : w.address = v.address := by simpa using List.find?_some hg
    rw [hd.eq_of_address hw hv hwa]

/-- `verifyRemovals`'s scan succeeds when every removal is in the set, and adds up their powers. -/
theorem verifyRemovalsLoop_ok {vals : ValidatorSet} : ∀ {D : List Validator} {r r' : Int},
    verifyRemovalsLoop vals D r = .ok r' ↔
      (∀ d ∈ D, d.address ∈ vals.validators.map (·.address)) ∧ r' = r + (D.map (powerOf vals ·.address)).sum
  | [], r, r' => by simp [verifyRemovalsLoop, eq_comm]
  | d :: D, r, r' => by
    cases hg : vals.getByAddress d.address with
    | none =>
      have hnot := getByAddress_eq_none.mp hg
      simp only [verifyRemovalsLoop, hg, List.forall_mem_cons, hnot, false_and, reduceCtorEq]
    | some val =>
      have hmem : d.address ∈ vals.validators.map (·.address) := by
        by_contra h
        simp [getByAddress_eq_none.mpr h] at hg
      simp only [verifyRemovalsLoop, hg, verifyRemovalsLoop_ok, List.forall_mem_cons, hmem, true_and,
        List.map_cons, List.sum_cons, powerOf, Option.map_some, Option.getD_some]
      constructor <;> rintro ⟨h₁, h₂⟩ <;> exact ⟨h₁, by rw [h₂]; ring⟩

/-- `verifyRemovals` of removals with distinct addresses: every one must be in the set, and the power they
    take away is returned. -/
theorem verifyRemovals_ok {vals : ValidatorSet} {D : List Validator}
    (hD : (D.map (·.address)).Nodup) {removed : Int} :
    verifyRemovals D vals = .ok removed ↔
      (∀ d ∈ D, d.address ∈ vals.validators.map (·.address)) ∧ removed = (D.map (powerOf vals ·.address)).sum := by
  unfold verifyRemovals
  constructor
  · intro h
    obtain ⟨r, hr, h⟩ := except_bind_eq_ok.mp h
    rw [verifyRemovalsLoop_ok] at hr
    split_ifs at h
    · simp [throw, throwThe, MonadExceptOf.throw, bind, Except.bind] at h
    · obtain rfl : r = removed := by simpa [pure, Except.pure] using h
      simpa using hr
  · rintro ⟨hmem, rfl⟩
    -- distinct removals in the set are no more than the set
    have hlen : D.length ≤ vals.validators.length := by
      have := List.Nodup.length_le_of_subset hD (fun a ha => by
        obtain ⟨d, hd, rfl⟩ := List.mem_map.mp ha
        exact hmem d hd)
      simpa using this
    have hr : verifyRemovalsLoop vals D 0 = .ok (D.map (powerOf vals ·.address)).sum :=
      verifyRemovalsLoop_ok.mpr ⟨hmem, by simp⟩
    simp [hr, not_lt.mpr hlen]

/-- Along deltas sorted ascending from a start within the maximum, the running total passes the maximum
    exactly when the final total does: it falls while the deltas are negative and rises after. -/
theorem verifyUpdatesLoop_isOk {vals : ValidatorSet} {removedPower : Int} :
    ∀ {L : List Validator} {s : Int}, s ≤ maxTotalVotingPower →
      L.Pairwise (fun a b => delta a vals ≤ delta b vals) →
      ((∃ r, verifyUpdatesLoop vals removedPower L s = .ok r) ↔
        s + (L.map (delta · vals)).sum ≤ maxTotalVotingPower)
  | [], s, hs, _ => by simp [verifyUpdatesLoop, hs]
  | u :: L, s, hs, hL => by
    obtain ⟨hu, hL'⟩ := List.pairwise_cons.mp hL
    by_cases hgt : s + delta u vals > maxTotalVotingPower
    · -- the first delta is not negative, so neither is any later one
      have hnn : 0 ≤ delta u vals := by omega
      have hsum : 0 ≤ (L.map (delta · vals)).sum := List.sum_nonneg fun x hx => by
        obtain ⟨w, hw, rfl⟩ := List.mem_map.mp hx
        exact hnn.trans (hu w hw)
      simp only [verifyUpdatesLoop, hgt, if_true, reduceCtorEq, exists_false, false_iff, List.map_cons,
        List.sum_cons, not_le]
      omega
    · simp only [verifyUpdatesLoop, hgt, if_false]
      rw [verifyUpdatesLoop_isOk (by omega) hL']
      simp [add_assoc]

theorem pairwise_sortByDelta (vals : ValidatorSet) (U : List Validator) :
    (U.insertionSort fun a b => delta a vals ≤ delta b vals).Pairwise (fun a b => delta a vals ≤ delta b vals) := by
  have : Std.Total fun a b : Validator => delta a vals ≤ delta b vals := ⟨fun a b => le_total _ _⟩
  have : IsTrans Validator fun a b => delta a vals ≤ delta b vals := ⟨fun _ _ _ => le_trans⟩
  exact List.pairwise_insertionSort _ U

/-- `verifyUpdates` fails exactly when the total after all changes passes the maximum, never on an
    intermediate sum, when the total after the removals is within it. -/
theorem verifyUpdates_isOk {vals : ValidatorSet} {U : List Validator} {removed : Int}
    (hs : vals.totalVotingPower - removed ≤ maxTotalVotingPower) :
    (∃ t, verifyUpdates U vals removed = .ok t) ↔
      vals.totalVotingPower - removed + (U.map (delta · vals)).sum ≤ maxTotalVotingPower := by
  unfold verifyUpdates
  rw [verifyUpdatesLoop_isOk hs (pairwise_sortByDelta vals U), ((List.perm_insertionSort _ U).map _).sum_eq]

theorem verifyUpdates_eq {vals : ValidatorSet} {U : List Validator} {removed t : Int}
    (h : verifyUpdates U vals removed = .ok t) : t = vals.totalVotingPower + (U.map (delta · vals)).sum := by
  unfold verifyUpdates at h
  rw [verifyUpdatesLoop_eq h, ((List.perm_insertionSort _ U).map _).sum_eq]
  ring

/-! ### Merging the updates and dropping the removals -/

/-- The merge loop of `applyUpdates` merges when the merge of the validators after `e` does. -/
theorem applyUpdatesLoop_isMerge {e : Validator} {E : List Validator} {m : List Validator → List Validator}
    (hE : (e :: E).Pairwise (KeyLT (·.address)))
    (hm : ∀ U, U.Pairwise (KeyLT (·.address)) → IsMerge (·.address) E U (m U)) :
    ∀ {U : List Validator}, U.Pairwise (KeyLT (·.address)) →
      IsMerge (·.address) (e :: E) U (applyUpdatesLoop e E m U)
  | [], _ => isMerge_nil_right hE
  | u :: U, hU => by
    obtain ⟨he, -⟩ := List.pairwise_cons.mp hE
    obtain ⟨hu, hU'⟩ := List.pairwise_cons.mp hU
    -- the three branches of the loop: `e` first, an update of `e`, or `u` first
    by_cases hlt : compare e.address u.address = .lt
    · rw [applyUpdatesLoop, if_pos hlt]
      exact (hm (u :: U) hU).cons_left he hlt hu
    by_cases heq : e.address = u.address
    · rw [applyUpdatesLoop, if_neg hlt, if_pos heq]
      exact (hm U hU').cons_eq heq he hu
    · rw [applyUpdatesLoop, if_neg hlt, if_neg heq]
      exact (applyUpdatesLoop_isMerge hE hm hU').cons_right he (KeyLT.of_not_lt hlt heq) hu

/-- The merge of `applyUpdates`, on lists sorted by address with distinct addresses. -/
theorem applyUpdatesMerge_isMerge : ∀ {E U : List Validator}, E.Pairwise (KeyLT (·.address)) →
    U.Pairwise (KeyLT (·.address)) → IsMerge (·.address) E U (applyUpdatesMerge E U)
  | [], _, _, hU => isMerge_nil_left hU
  | _ :: _, _, hE, hU => applyUpdatesLoop_isMerge hE (fun _ hU' => applyUpdatesMerge_isMerge hE.of_cons hU') hU

/-- The scan of `applyRemovals` over lists sorted by address, with every removal in the list, drops
    exactly the validators the removals name. -/
theorem applyRemovalsLoop_eq : ∀ {A D : List Validator}, A.Pairwise (KeyLT (·.address)) →
    D.Pairwise (KeyLT (·.address)) → (∀ d ∈ D, d.address ∈ A.map (·.address)) →
      applyRemovalsLoop A D = some (A.filter fun a => a.address ∉ D.map (·.address))
  | A, [], _, _, _ => by simp [applyRemovalsLoop]
  | [], d :: D, _, _, hsub => absurd (hsub d List.mem_cons_self) (by simp)
  | e :: A, d :: D, hA, hD, hsub => by
    obtain ⟨he, hA'⟩ := List.pairwise_cons.mp hA
    obtain ⟨hd, hD'⟩ := List.pairwise_cons.mp hD
    -- a removal at an address after `e` is in the rest of the list
    have hrest : ∀ x ∈ D ++ [d], x.address ≠ e.address → x.address ∈ A.map (·.address) := fun x hx hne => by
      have hx' : x ∈ d :: D := by simpa [or_comm] using hx
      simpa only [List.map_cons, List.mem_cons, hne, false_or] using hsub x hx'
    by_cases heq : e.address = d.address
    · -- `e` is dropped, and the later removals lie beyond it
      have hsub' : ∀ x ∈ D, x.address ∈ A.map (·.address) := fun x hx =>
        hrest x (by simp [hx]) (heq ▸ (hd x hx).ne.symm)
      rw [applyRemovalsLoop, if_pos heq, applyRemovalsLoop_eq hA' hD' hsub', List.filter_cons_of_neg (by simp [heq])]
      exact congrArg some (filter_not_mem_cons fun x hx => heq ▸ (he x hx).ne.symm).symm
    · -- `e` stays, and `d` lies further on
      have hdA : d.address ∈ A.map (·.address) := hrest d (by simp) (Ne.symm heq)
      have hed : KeyLT (·.address) e d := by
        obtain ⟨a, ha, had⟩ := List.mem_map.mp hdA
        have hea : compare e.address a.address = .lt := he a ha
        show compare e.address d.address = .lt
        rwa [← had]
      have hlt : ∀ x ∈ d :: D, KeyLT (·.address) e x := fun x hx => by
        rcases List.mem_cons.mp hx with rfl | hx
        · exact hed
        · exact hed.trans (hd x hx)
      have hsub' : ∀ x ∈ d :: D, x.address ∈ A.map (·.address) := fun x hx =>
        hrest x (by simpa [or_comm] using hx) (hlt x hx).ne.symm
      rw [applyRemovalsLoop, if_neg heq, applyRemovalsLoop_eq hA' hD hsub',
        List.filter_cons_of_pos (by simpa using key_not_mem_of_lt hlt)]
      rfl

/-- `computeNewPriorities` gives a validator of the set its priority and a new one `-(T + T >> 3)`. -/
theorem computeNewPriorities_eq (U : List Validator) (vals : ValidatorSet) (t : Int) :
    computeNewPriorities U vals t = U.map fun u =>
      { u with proposerPriority := ((vals.getByAddress u.address).map (·.proposerPriority)).getD (-(t + (t >>> 3))) } := by
  refine List.map_congr_left fun u _ => ?_
  cases vals.getByAddress u.address <;> rfl

theorem address_computeNewPriorities (U : List Validator) (vals : ValidatorSet) (t : Int) :
    (computeNewPriorities U vals t).map (·.address) = U.map (·.address) := by
  simp [computeNewPriorities_eq, Function.comp_def]

theorem entry_computeNewPriorities (U : List Validator) (vals : ValidatorSet) (t : Int) :
    (computeNewPriorities U vals t).map (·.entry) = U.map (·.entry) := by
  simp [computeNewPriorities_eq, Function.comp_def, Validator.entry]

/-- The updates and removals `processChanges` returns are sorted by address, with no address in both. -/
theorem processChanges_sorted {C U D : List Validator} (h : processChanges C = .ok (U, D)) :
    U.Pairwise (KeyLT (·.address)) ∧ D.Pairwise (KeyLT (·.address)) ∧
      ∀ d ∈ D, d.address ∉ U.map (·.address) := by
  obtain ⟨hC, rfl, rfl⟩ := processChanges_ok.mp h
  have hp := List.perm_insertionSort (fun a b => byAddress a b) C
  have hnd := (hp.map (·.address)).nodup_iff.mpr hC.nodup
  have hs := pairwise_lt_of_le (pairwise_sortByAddress C) hnd
  refine ⟨hs.filter _, hs.filter _, fun d hd hdU => ?_⟩
  -- two entries of the sorted list at one address are one entry, of power zero and positive at once
  obtain ⟨u, hu, hud⟩ := List.mem_map.mp hdU
  have hd' := List.mem_filter.mp hd
  have hu' := List.mem_filter.mp hu
  obtain rfl := List.inj_on_of_nodup_map hnd hu'.1 hd'.1 hud
  simp only [decide_eq_true_eq] at hd' hu'
  omega

/-- The set's validators sorted by address, for `applyUpdates`. -/
theorem sortByAddress_sorted {vals : ValidatorSet} (hd : vals.Distinct) :
    (vals.validators.insertionSort fun a b => byAddress a b).Pairwise (KeyLT (·.address)) := by
  have hnd : (vals.validators.map (·.address)).Nodup := List.pairwise_map.mpr hd
  exact pairwise_lt_of_le (pairwise_sortByAddress _)
    (((List.perm_insertionSort _ _).map fun v : Validator => v.address).nodup_iff.mpr hnd)

/-- The change list's addresses are those of its updates and its removals. -/
theorem mem_changes_iff {C U D : List Validator} (h : processChanges C = .ok (U, D)) (a : Address) :
    a ∈ C.map (·.address) ↔ a ∈ U.map (·.address) ∨ a ∈ D.map (·.address) := by
  obtain ⟨hC, rfl, rfl⟩ := processChanges_ok.mp h
  have hp := List.perm_insertionSort (fun a b => byAddress a b) C
  simp only [List.mem_map, List.mem_filter, hp.mem_iff, decide_eq_true_eq]
  constructor
  · rintro ⟨c, hc, rfl⟩
    rcases (hC.power c hc).1.lt_or_eq with hpos | hzero
    · exact .inl ⟨c, ⟨hc, hpos⟩, rfl⟩
    · exact .inr ⟨c, ⟨hc, hzero.symm⟩, rfl⟩
  · rintro (⟨c, ⟨hc, -⟩, rfl⟩ | ⟨c, ⟨hc, -⟩, rfl⟩) <;> exact ⟨c, hc, rfl⟩

/-- The merge of `applyUpdates` finds at an address no update names what the set found there. -/
theorem getByAddress_applyUpdates {vals : ValidatorSet} {U : List Validator} (hd : vals.Distinct)
    (hU : U.Pairwise (KeyLT (·.address))) {a : Address} (ha : a ∉ U.map (·.address)) :
    (vals.applyUpdates U).getByAddress a = vals.getByAddress a := by
  have hM := applyUpdatesMerge_isMerge (sortByAddress_sorted hd) hU
  have hE : (vals.validators.insertionSort fun a b => byAddress a b).Perm vals.validators := List.perm_insertionSort _ _
  have hMd : (vals.applyUpdates U).Distinct := hM.1.imp KeyLT.ne
  -- a validator at `a` in the merge is one of the set's, and the other way round
  have hmem : ∀ v, v.address = a → (v ∈ (vals.applyUpdates U).validators ↔ v ∈ vals.validators) := fun v hva => by
    have hvU : v ∉ U := fun hv => ha (hva ▸ List.mem_map_of_mem hv)
    show v ∈ applyUpdatesMerge _ U ↔ _
    rw [hM.2.mem_iff, List.mem_append, List.mem_filter, hE.mem_iff]
    simp [hvU, hva, ha]
  cases hg : vals.getByAddress a with
  | none =>
    refine getByAddress_eq_none.mpr fun hma => ?_
    obtain ⟨v, hv, hva⟩ := List.mem_map.mp hma
    exact getByAddress_eq_none.mp hg (hva ▸ List.mem_map_of_mem ((hmem v hva).mp hv))
  | some v =>
    have hv := List.mem_of_find?_eq_some hg
    have hva : v.address = a := by simpa using List.find?_some hg
    rw [← hva, getByAddress_of_mem hMd ((hmem v hva).mpr hv)]

/-- Detaching the proposer at the updates and then at the removals is detaching it at the change list:
    a validator a removal drops is still the set's own after the updates, as no update names it. -/
theorem detach_applyUpdates {vals : ValidatorSet} {C U D : List Validator} (hd : vals.Distinct)
    (h : processChanges C = .ok (U, D)) (t : Int) (p : Proposer) :
    (vals.applyUpdates (computeNewPriorities U vals t)).detach (D.map (·.address))
      (vals.detach ((computeNewPriorities U vals t).map (·.address)) p) = vals.detach (C.map (·.address)) p := by
  obtain ⟨hU, -, hUD⟩ := processChanges_sorted h
  have hU' : (computeNewPriorities U vals t).Pairwise (KeyLT (·.address)) := by
    rw [computeNewPriorities_eq]
    exact List.pairwise_map.mpr (hU.imp id)
  cases p with
  | detached v => rfl
  | member a =>
    rw [address_computeNewPriorities]
    by_cases haU : a ∈ U.map (·.address)
    · -- an update replaced the validator at `a`, and no removal names `a`
      have haD : a ∉ D.map (·.address) := fun haD => by
        obtain ⟨d, hdD, rfl⟩ := List.mem_map.mp haD
        exact hUD d hdD haU
      have haC : a ∈ C.map (·.address) := (mem_changes_iff h a).mpr (.inl haU)
      cases hg : vals.getByAddress a <;> simp [detach, haU, haC, haD, hg]
    · have hget := getByAddress_applyUpdates hd hU' (by rwa [address_computeNewPriorities])
      simp only [detach, haU, if_false, mem_changes_iff h a, false_or, hget]

/-- After `applyUpdates` and `applyRemovals`: the validators sorted by address, the set's at the addresses
    the change list does not name, and the updates; a proposer at an address the list names is detached. -/
theorem applyRemovals_applyUpdates {vals : ValidatorSet} {C U D : List Validator} (hd : vals.Distinct)
    (h : processChanges C = .ok (U, D)) (hD : ∀ d ∈ D, d.address ∈ vals.validators.map (·.address)) (t : Int) :
    ∃ B, (vals.applyUpdates (computeNewPriorities U vals t)).applyRemovals D = some B ∧
      B.proposer = vals.proposer.map (vals.detach (C.map (·.address))) ∧ B.validators.Pairwise (KeyLT (·.address)) ∧
      B.validators.Perm ((vals.validators.filter fun v => v.address ∉ C.map (·.address)) ++
        computeNewPriorities U vals t) := by
  obtain ⟨hU, hDs, hUD⟩ := processChanges_sorted h
  set U' := computeNewPriorities U vals t
  set E := vals.validators.insertionSort fun a b => byAddress a b
  have hE : E.Perm vals.validators := List.perm_insertionSort _ _
  have hU'a : U'.map (·.address) = U.map (·.address) := address_computeNewPriorities U vals t
  have hU' : U'.Pairwise (KeyLT (·.address)) := by
    have : (U'.map (·.address)).Pairwise (fun a b => compare a b = .lt) := by
      rw [hU'a]; exact List.pairwise_map.mpr hU
    have h' := List.pairwise_map.mp this
    exact h'
  have hM := applyUpdatesMerge_isMerge (sortByAddress_sorted hd) hU'
  -- every removal names a validator of the set that no update replaced, so it is in the merge
  have hDM : ∀ d ∈ D, d.address ∈ (applyUpdatesMerge E U').map (·.address) := fun d hdD => by
    obtain ⟨v, hv, hva⟩ := List.mem_map.mp (hD d hdD)
    have hvU : v.address ∉ U'.map (·.address) := by rw [hU'a, hva]; exact hUD d hdD
    have hvE : v ∈ E.filter fun e => e.address ∉ U'.map (·.address) :=
      List.mem_filter.mpr ⟨hE.mem_iff.mpr hv, by simpa using hvU⟩
    exact List.mem_map.mpr ⟨v, hM.2.symm.subset (List.mem_append_left _ hvE), hva⟩
  have hprop : ((vals.applyUpdates U').proposer).map ((vals.applyUpdates U').detach (D.map (·.address))) =
      vals.proposer.map (vals.detach (C.map (·.address))) := by
    show (vals.proposer.map _).map _ = _
    rw [Option.map_map]
    exact congrArg (Option.map · vals.proposer) (funext (detach_applyUpdates hd h t))
  have hrem : (vals.applyUpdates U').applyRemovals D = some
      ⟨(applyUpdatesMerge E U').filter fun a => a.address ∉ D.map (·.address),
        vals.proposer.map (vals.detach (C.map (·.address)))⟩ := by
    rw [applyRemovals, show (vals.applyUpdates U').validators = applyUpdatesMerge E U' from rfl,
      applyRemovalsLoop_eq hM.1 hDs hDM, Option.map_some, hprop]
  refine ⟨_, hrem, rfl, hM.1.filter _, ?_⟩
  -- dropping the removals from the merge leaves the validators at unnamed addresses and the updates
  refine (hM.2.filter _).trans ?_
  rw [List.filter_append]
  have hkeep : U'.filter (fun u => u.address ∉ D.map (·.address)) = U' := by
    refine List.filter_eq_self.mpr fun u hu => ?_
    have huU : u.address ∈ U.map (·.address) := hU'a ▸ List.mem_map_of_mem hu
    have hnot : u.address ∉ D.map (·.address) := fun hDu => by
      obtain ⟨d, hdD, hda⟩ := List.mem_map.mp hDu
      exact hUD d hdD (hda ▸ huU)
    simpa using hnot
  rw [hkeep, List.filter_filter]
  refine List.Perm.append_right _ ((hE.filter _).trans (List.Perm.of_eq (List.filter_congr fun v _ => ?_)))
  simp only [mem_changes_iff h, hU'a, not_or, Bool.decide_and, Bool.and_comm]

-- The proposer of `NewValidatorSet` points into the list: an update that does not name it moves its
-- priority with the rescale and the centring, from `-1` to `5`.
example : ((newValidatorSet [⟨[1], 10, 0⟩, ⟨[2], 1, 0⟩]).bind fun V => (V.UpdateWithChangeSet [⟨[3], 5, 0⟩]).toOption).bind
    (·.getProposer) = some (some ⟨[1], 10, 5⟩) := by decide

/-! ### The map a change list stands for -/

/-- The map update a change list stands for, as entries: the set's entries at the addresses the list
    does not name, then the list's entries of positive power. -/
def applied (vals : ValidatorSet) (changes : List Validator) : List (Address × Int) :=
  (vals.validators.filter fun v => v.address ∉ changes.map (·.address)).map (·.entry) ++
    (changes.filter fun c => 0 < c.votingPower).map (·.entry)

@[simp] theorem entry_mapPriorities (vals : ValidatorSet) (f : Validator → Int) :
    (vals.mapPriorities f).validators.map (·.entry) = vals.validators.map (·.entry) := by
  simp [Function.comp_def, Validator.entry]

@[simp] theorem address_mapPriorities (vals : ValidatorSet) (f : Validator → Int) :
    (vals.mapPriorities f).validators.map (·.address) = vals.validators.map (·.address) := by
  simp [Function.comp_def]

/-- The powers of the set at the addresses of a change list with distinct addresses. -/
theorem sum_powerOf {vals : ValidatorSet} (hd : vals.Distinct) : ∀ {C : List Validator},
    (C.map (·.address)).Nodup → (C.map (powerOf vals ·.address)).sum =
      (vals.validators.map fun v => if v.address ∈ C.map (·.address) then v.votingPower else 0).sum
  | [], _ => by simp
  | c :: C, hC => by
    obtain ⟨hc, hC'⟩ := List.nodup_cons.mp hC
    -- a validator at `c`'s address is at no other address of the list
    have hpt : ∀ v ∈ vals.validators, (if v.address ∈ (c :: C).map (·.address) then v.votingPower else 0) =
        (if v.address = c.address then v.votingPower else 0) +
          (if v.address ∈ C.map (·.address) then v.votingPower else 0) := by
      intro v _
      by_cases hv : v.address = c.address
      · have hvC : v.address ∉ C.map (·.address) := hv ▸ hc
        have hmem : v.address ∈ (c :: C).map (·.address) := by simp [hv]
        rw [if_pos hmem, if_pos hv, if_neg hvC, add_zero]
      · simp only [List.map_cons, List.mem_cons, hv, false_or, if_false, zero_add]
    rw [List.map_cons, List.sum_cons, sum_powerOf hd hC', powerOf_eq_sum hd, List.map_congr_left hpt,
      List.sum_map_add]

/-- The set's total power: that at the addresses a change list does not name, and that at the ones it
    names. -/
theorem totalVotingPower_eq {vals : ValidatorSet} (hd : vals.Distinct) {C : List Validator}
    (hC : (C.map (·.address)).Nodup) :
    vals.totalVotingPower = ((vals.validators.filter fun v => v.address ∉ C.map (·.address)).map (·.votingPower)).sum +
      (C.map (powerOf vals ·.address)).sum := by
  rw [sum_powerOf hd hC, List.sum_map_ite, totalVotingPower,
    ← List.sum_map_filter_add_sum_map_filter_not (fun v => v.address ∉ C.map (·.address))]
  simp

/-- Removals with distinct addresses take away no more than the set's total. -/
theorem sum_powerOf_le {vals : ValidatorSet} (hV : vals.Proper) {D : List Validator} (hD : (D.map (·.address)).Nodup) :
    (D.map (powerOf vals ·.address)).sum ≤ vals.totalVotingPower := by
  rw [sum_powerOf hV.distinct hD, totalVotingPower]
  refine List.sum_le_sum fun v hv => ?_
  split_ifs
  · exact le_rfl
  · exact (hV.pos v hv).le

/-- The total of the applied map is the total `verifyUpdates` checks: the set's, less the removals', plus
    the updates' deltas. -/
theorem sum_applied {vals : ValidatorSet} {C U D : List Validator} (hd : vals.Distinct)
    (h : processChanges C = .ok (U, D)) :
    ((applied vals C).map (·.2)).sum =
      vals.totalVotingPower - (D.map (powerOf vals ·.address)).sum + (U.map (delta · vals)).sum := by
  obtain ⟨hC, rfl, rfl⟩ := processChanges_ok.mp h
  set S := C.insertionSort fun a b => byAddress a b
  have hp : S.Perm C := List.perm_insertionSort _ C
  -- the changes of power zero are those that are not positive
  have hzero : S.filter (fun c => c.votingPower = 0) = S.filter fun c => ¬(0 < c.votingPower) :=
    List.filter_congr fun c hc => by
      have := (hC.power c (hp.subset hc)).1
      simp only [decide_eq_decide]
      omega
  have hsplit := List.sum_map_filter_add_sum_map_filter_not (fun c => 0 < c.votingPower) (powerOf vals ·.address) S
  have hpos : ((C.filter fun c => 0 < c.votingPower).map (·.votingPower)).sum =
      ((S.filter fun c => 0 < c.votingPower).map (·.votingPower)).sum := ((hp.filter _).map _).sum_eq.symm
  have htot := totalVotingPower_eq hd hC.nodup
  rw [← (hp.map _).sum_eq] at htot
  simp only [applied, List.map_append, List.map_map, List.sum_append, delta_eq, hzero]
  rw [Rescale.sum_map_sub]
  simp only [Function.comp_def, Validator.entry] at hpos ⊢
  linarith

theorem numNewValidators_eq_zero {U : List Validator} {vals : ValidatorSet} :
    numNewValidators U vals = 0 ↔ ∀ u ∈ U, u.address ∈ vals.validators.map (·.address) := by
  simp [numNewValidators, hasAddress, List.filter_eq_nil_iff]

/-- An update of positive power in the change list is among the updates `processChanges` returns. -/
theorem mem_updates {C U D : List Validator} (h : processChanges C = .ok (U, D)) {c : Validator} :
    c ∈ U ↔ c ∈ C ∧ 0 < c.votingPower := by
  obtain ⟨-, rfl, rfl⟩ := processChanges_ok.mp h
  simp [(List.perm_insertionSort _ C).mem_iff]

/-- A change of power zero is among the removals `processChanges` returns. -/
theorem mem_removals {C U D : List Validator} (h : processChanges C = .ok (U, D)) {c : Validator} :
    c ∈ D ↔ c ∈ C ∧ c.votingPower = 0 := by
  obtain ⟨-, rfl, rfl⟩ := processChanges_ok.mp h
  simp [(List.perm_insertionSort _ C).mem_iff]

/-- With every removal in the set, the emptiness check of `updateWithChangeSet` fires exactly when the
    applied map is empty. -/
theorem emptySet_iff {vals : ValidatorSet} {C U D : List Validator} (hd : vals.Distinct)
    (h : processChanges C = .ok (U, D)) (hD : ∀ d ∈ D, d.address ∈ vals.validators.map (·.address)) :
    (numNewValidators U vals = 0 ∧ vals.validators.length = D.length) ↔ applied vals C = [] := by
  obtain ⟨-, hDs, hUD⟩ := processChanges_sorted h
  have hVnd : (vals.validators.map (·.address)).Nodup := List.pairwise_map.mpr hd
  have hDnd := nodup_of_pairwise_lt hDs
  have hDV : D.map (·.address) ⊆ vals.validators.map (·.address) := fun a ha => by
    obtain ⟨d, hdD, rfl⟩ := List.mem_map.mp ha
    exact hD d hdD
  have hU : U = [] ↔ ∀ c ∈ C, ¬0 < c.votingPower := by
    rw [List.eq_nil_iff_forall_not_mem]
    exact ⟨fun hU c hc hpos => hU c ((mem_updates h).mpr ⟨hc, hpos⟩),
      fun hC c hc => hC c ((mem_updates h).mp hc).1 ((mem_updates h).mp hc).2⟩
  simp only [applied, List.append_eq_nil_iff, List.map_eq_nil_iff, List.filter_eq_nil_iff, decide_eq_true_eq,
    not_not, numNewValidators_eq_zero]
  constructor
  · rintro ⟨hnew, hlen⟩
    -- the removals are the whole set, so no update is at an address of the set
    have hVD : vals.validators.map (·.address) ⊆ D.map (·.address) :=
      ((List.subperm_of_subset hDnd hDV).perm_of_length_le (by simp [hlen])).symm.subset
    have hUnil : U = [] := List.eq_nil_iff_forall_not_mem.mpr fun u hu => by
      obtain ⟨d, hdD, hda⟩ := List.mem_map.mp (hVD (hnew u hu))
      exact hUD d hdD (hda ▸ List.mem_map_of_mem hu)
    exact ⟨fun v hv => (mem_changes_iff h _).mpr (.inr (hVD (List.mem_map_of_mem hv))), hU.mp hUnil⟩
  · rintro ⟨hV, hC⟩
    have hUnil := hU.mpr hC
    subst hUnil
    have hVD : vals.validators.map (·.address) ⊆ D.map (·.address) := fun a ha => by
      obtain ⟨v, hv, rfl⟩ := List.mem_map.mp ha
      simpa using (mem_changes_iff h _).mp (hV v hv)
    refine ⟨by simp, ?_⟩
    have h₁ := List.Nodup.length_le_of_subset hVnd hVD
    have h₂ := List.Nodup.length_le_of_subset hDnd hDV
    simp only [List.length_map] at h₁ h₂
    omega

/-! ### The total, the rescaling and the centring -/

/-- The clipped running sums of non-negative powers from a start within a total within the maximum stay
    within it. -/
theorem scanl_safeAddClip_le : ∀ {l : List Int} {acc : Int}, 0 ≤ acc → (∀ x ∈ l, 0 ≤ x) →
    acc + l.sum ≤ maxTotalVotingPower → ∀ s ∈ l.scanl safeAddClip acc, s ≤ maxTotalVotingPower
  | [], acc, _, _, h, s, hs => by
    simp only [List.scanl_nil, List.mem_singleton] at hs
    simp only [List.sum_nil, add_zero] at h
    exact hs ▸ h
  | x :: l, acc, hacc, hx, h, s, hs => by
    have hx₀ := hx x List.mem_cons_self
    have hl : 0 ≤ l.sum := List.sum_nonneg fun y hy => hx y (List.mem_cons_of_mem _ hy)
    rw [List.sum_cons] at h
    have hmax := maxTotalVotingPower_eq
    -- no clipping: the running sum stays below the maximum
    have hclip : safeAddClip acc x = acc + x :=
      safeAddClip_eq (by simp only [minInt64]; omega) (by simp only [maxInt64]; omega)
    rw [List.scanl_cons, hclip, List.mem_cons] at hs
    rcases hs with rfl | hs
    · omega
    · exact scanl_safeAddClip_le (by omega) (fun y hy => hx y (List.mem_cons_of_mem _ hy)) (by omega) s hs

/-- `updateTotalVotingPower` does not panic on non-negative powers whose total is within the maximum. -/
theorem updateTotalVotingPower_of_le {vals : ValidatorSet} (hpos : ∀ v ∈ vals.validators, 0 ≤ v.votingPower)
    (h : vals.totalVotingPower ≤ maxTotalVotingPower) : vals.updateTotalVotingPower = some vals := by
  have hle := scanl_safeAddClip_le le_rfl (fun x hx => by
    obtain ⟨v, hv, rfl⟩ := List.mem_map.mp hx
    exact hpos v hv) (by simpa [totalVotingPower] using h)
  simp only [updateTotalVotingPower, List.any_eq_true, decide_eq_true_eq]
  rw [if_neg]
  rintro ⟨s, hs, hgt⟩
  exact absurd (hle s hs) (not_le.mpr hgt)

/-- `RescalePriorities` on priorities within `b` of zero, when `2b + diffMax - 1` is an int64: it divides
    them by the ceiling of their spread over `diffMax`, which brings them within `diffMax` of each other
    and keeps them within `b` of zero. -/
theorem rescalePriorities_spec {vals : ValidatorSet} {diffMax b : Int} (hne : vals.validators ≠ [])
    (hb : ∀ v ∈ vals.validators, |v.proposerPriority| ≤ b) (hd : 0 < diffMax) (hb2 : 2 * b + diffMax - 1 ≤ maxInt64) :
    ∃ f : Validator → Int, vals.rescalePriorities diffMax = some (vals.mapPriorities f) ∧
      (vals.mapPriorities f).Spread diffMax ∧ ∀ v ∈ vals.validators, |f v| ≤ b := by
  obtain ⟨u, hu, v, hv, hminmax, hdiff⟩ := computeMaxMinPriorityDiff_eq hne hb (by omega)
  have hbu := abs_le.mp (hb u hu)
  have hbv := abs_le.mp (hb v hv)
  -- every two priorities are at most the computed difference apart
  have hspread : ∀ w ∈ vals.validators, ∀ w' ∈ vals.validators,
      w.proposerPriority - w'.proposerPriority ≤ u.proposerPriority - v.proposerPriority := fun w hw w' hw' => by
    have := hminmax w hw
    have := hminmax w' hw'
    omega
  by_cases hgt : u.proposerPriority - v.proposerPriority > diffMax
  · -- the ratio is the ceiling of the difference over `diffMax`
    set diff := u.proposerPriority - v.proposerPriority
    have hw : wrapInt64 (diff + diffMax - 1) = diff + diffMax - 1 :=
      wrapInt64_of_mem (by simp only [minInt64]; omega) (by omega)
    set ratio := (diff + diffMax - 1) / diffMax
    have hratio : (wrapInt64 (diff + diffMax - 1)).tdiv diffMax = ratio := by
      rw [hw, Int.tdiv_eq_ediv_of_nonneg (by omega)]
    have hceil : diff ≤ ratio * diffMax := Rescale.le_mul_ceil hd
    have hpos : 0 < ratio := by
      by_contra hle
      have : ratio * diffMax ≤ 0 := Int.mul_nonpos_of_nonpos_of_nonneg (by omega) hd.le
      omega
    -- the quotients are no further from zero than the priorities, so no wrap
    have hq : ∀ w ∈ vals.validators, wrapInt64 (w.proposerPriority.tdiv ratio) = w.proposerPriority.tdiv ratio ∧
        |w.proposerPriority.tdiv ratio| ≤ b := fun w hw => by
      have h₁ := (Rescale.abs_tdiv_le w.proposerPriority ratio).trans (hb w hw)
      have h₂ := abs_le.mp h₁
      exact ⟨wrapInt64_of_mem (by simp only [minInt64, maxInt64] at hb2 ⊢; omega) (by omega), h₁⟩
    refine ⟨fun w => wrapInt64 (w.proposerPriority.tdiv ratio), ?_, ?_, fun w hw => by
      dsimp only
      rw [(hq w hw).1]
      exact (hq w hw).2⟩
    · simp only [rescalePriorities, isNilOrEmpty, List.isEmpty_iff, hne, if_false, not_le.mpr hd, hdiff,
        Option.bind_eq_bind, Option.bind_some, hratio, gt_iff_lt, hgt, if_true]
      rw [if_neg hpos.ne']
    · intro w hw w' hw'
      simp only [mapPriorities_validators, List.mem_map] at hw hw'
      obtain ⟨w, hw, rfl⟩ := hw
      obtain ⟨w', hw', rfl⟩ := hw'
      rw [(hq w hw).1, (hq w' hw').1]
      exact Rescale.tdiv_sub_tdiv_le hpos hd.le (by nlinarith [hspread w hw w' hw'])
  · -- priorities already within `diffMax` are left as they are
    refine ⟨(·.proposerPriority), ?_, ?_, hb⟩
    · rw [mapPriorities_of_forall fun _ _ => rfl]
      simp only [rescalePriorities, isNilOrEmpty, List.isEmpty_iff, hne, if_false, not_le.mpr hd, hdiff,
        Option.bind_eq_bind, Option.bind_some, hgt]
    · rw [mapPriorities_of_forall fun _ _ => rfl]
      exact fun w hw w' hw' => (hspread w hw w' hw').trans (not_lt.mp hgt)

/-- `shiftByAvgProposerPriority` on priorities within `b` of zero, with `2b` an int64, at most `d` apart:
    it subtracts their Euclidean average, which leaves their sum in `[0, n)` and each within `d` of
    zero. -/
theorem shiftByAvgProposerPriority_spec {vals : ValidatorSet} {b d : Int} (hne : vals.validators ≠ [])
    (hb : ∀ v ∈ vals.validators, |v.proposerPriority| ≤ b) (hb2 : 2 * b ≤ maxInt64) (hs : vals.Spread d) :
    ∃ avg, vals.shiftByAvgProposerPriority = some (vals.mapPriorities fun v => v.proposerPriority - avg) ∧
      0 ≤ (vals.validators.map fun v => v.proposerPriority - avg).sum ∧
      (vals.validators.map fun v => v.proposerPriority - avg).sum < vals.validators.length ∧
      ∀ v ∈ vals.validators, |v.proposerPriority - avg| ≤ d := by
  set l := vals.validators.map (·.proposerPriority)
  have hl : l ≠ [] := by simpa [l] using hne
  have hlen : (l.length : Int) = vals.validators.length := by simp [l]
  have hmap : (vals.validators.map fun v => v.proposerPriority - l.sum / l.length) =
      l.map (· - l.sum / l.length) := by simp [l, Function.comp_def]
  -- the average lies within `b` of zero, like the priorities
  have havg : -b ≤ l.sum / l.length ∧ l.sum / l.length ≤ b := Rescale.average_mem hl fun y hy => by
    obtain ⟨v, hv, rfl⟩ := List.mem_map.mp hy
    have := abs_le.mp (hb v hv)
    constructor <;> linarith
  have hrange : minInt64 ≤ l.sum / l.length ∧ l.sum / l.length ≤ maxInt64 := by
    simp only [minInt64, maxInt64] at hb2 ⊢
    constructor <;> linarith
  have hcomp : vals.computeAvgProposerPriority = some (l.sum / l.length) := by
    have hn : (vals.validators.length : Int) ≠ 0 := by simpa using hne
    rw [hlen] at hrange ⊢
    simp only [computeAvgProposerPriority, hn, if_false, hrange, and_self, if_true, l]
  refine ⟨l.sum / l.length, ?_, ?_, ?_, fun v hv => ?_⟩
  · simp only [shiftByAvgProposerPriority, isNilOrEmpty, List.isEmpty_iff, hne, if_false, hcomp,
      Option.bind_eq_bind, Option.bind_some, Option.pure_def]
    refine congrArg some (mapPriorities_congr fun v hv => ?_)
    have := abs_le.mp (hb v hv)
    exact safeSubClip_eq (by simp only [minInt64, maxInt64] at hb2 ⊢; omega) (by omega)
  · rw [hmap]; exact (Rescale.sum_sub_average_mem hl).1
  · rw [hmap, ← hlen]; exact (Rescale.sum_sub_average_mem hl).2
  · -- every priority is within `d` of this one, so the average is too
    have hnear : v.proposerPriority - d ≤ l.sum / l.length ∧ l.sum / l.length ≤ v.proposerPriority + d :=
      Rescale.average_mem hl fun y hy => by
        obtain ⟨w, hw, rfl⟩ := List.mem_map.mp hy
        exact ⟨by linarith [hs v hv w hw], by linarith [hs w hw v hv]⟩
    exact abs_le.mpr ⟨by linarith, by linarith⟩

/-- `RescalePriorities` on int64 priorities, with `diffMax` at most `2^62`, does not panic and leaves int64
    priorities. A difference the int64 arithmetic wraps is no longer above `diffMax`, and a ratio that
    `diff + diffMax - 1` wraps below zero is negative, not zero. -/
theorem rescalePriorities_int64 {vals : ValidatorSet} {diffMax : Int} (hne : vals.validators ≠ [])
    (hp : ∀ v ∈ vals.validators, minInt64 ≤ v.proposerPriority ∧ v.proposerPriority ≤ maxInt64)
    (hd : 0 < diffMax) (hd' : diffMax ≤ 2 ^ 62) :
    ∃ f : Validator → Int, vals.rescalePriorities diffMax = some (vals.mapPriorities f) ∧
      ∀ v ∈ vals.validators, minInt64 ≤ f v ∧ f v ≤ maxInt64 := by
  -- the difference is an int64, whichever way `computeMaxMinPriorityDiff` wraps it
  obtain ⟨diff, hdiff, hle⟩ : ∃ diff, vals.computeMaxMinPriorityDiff = some diff ∧ diff ≤ maxInt64 := by
    simp only [computeMaxMinPriorityDiff, isNilOrEmpty, List.isEmpty_iff, hne, if_false]
    split_ifs
    · exact ⟨_, rfl, (wrapInt64_mem _).2⟩
    · exact ⟨_, rfl, (wrapInt64_mem _).2⟩
  by_cases hgt : diff > diffMax
  · set ratio := (wrapInt64 (diff + diffMax - 1)).tdiv diffMax
    have hratio : ratio ≠ 0 := by
      by_cases hw : diff + diffMax - 1 ≤ maxInt64
      · -- no wrap: the ratio is at least two
        have hx : wrapInt64 (diff + diffMax - 1) = diff + diffMax - 1 :=
          wrapInt64_of_mem (by simp only [minInt64]; omega) hw
        have h₁ : 1 ≤ (diff + diffMax - 1).tdiv diffMax := by
          rw [Int.tdiv_eq_ediv_of_nonneg (by omega)]
          exact Int.le_ediv_of_mul_le hd (by omega)
        simp only [ratio, hx]
        omega
      · -- a wrap: the sum is at least `diffMax` below zero, and so the ratio is negative
        have hx : wrapInt64 (diff + diffMax - 1) = diff + diffMax - 1 - 2 ^ 64 :=
          wrapInt64_sub (not_le.mp hw) (by simp only [maxInt64] at hle ⊢; omega)
        have h₁ : 1 ≤ (-(diff + diffMax - 1 - 2 ^ 64)).tdiv diffMax := by
          rw [Int.tdiv_eq_ediv_of_nonneg (by simp only [maxInt64] at hle; omega)]
          exact Int.le_ediv_of_mul_le hd (by simp only [maxInt64] at hle; omega)
        rw [Int.neg_tdiv] at h₁
        simp only [ratio, hx]
        omega
    refine ⟨fun w => wrapInt64 (w.proposerPriority.tdiv ratio), ?_, fun w _ => wrapInt64_mem _⟩
    simp only [rescalePriorities, isNilOrEmpty, List.isEmpty_iff, hne, if_false, not_le.mpr hd, hdiff,
      Option.bind_eq_bind, Option.bind_some, gt_iff_lt, hgt, if_true]
    rw [if_neg hratio]
  · -- priorities no more than `diffMax` apart are left as they are
    refine ⟨(·.proposerPriority), ?_, hp⟩
    rw [mapPriorities_of_forall fun _ _ => rfl]
    simp only [rescalePriorities, isNilOrEmpty, List.isEmpty_iff, hne, if_false, not_le.mpr hd, hdiff,
      Option.bind_eq_bind, Option.bind_some, hgt]

/-- `shiftByAvgProposerPriority` on int64 priorities does not panic: their Euclidean average is an int64. -/
theorem shiftByAvgProposerPriority_int64 {vals : ValidatorSet} (hne : vals.validators ≠ [])
    (hp : ∀ v ∈ vals.validators, minInt64 ≤ v.proposerPriority ∧ v.proposerPriority ≤ maxInt64) :
    ∃ W, vals.shiftByAvgProposerPriority = some W := by
  set l := vals.validators.map (·.proposerPriority)
  have hl : l ≠ [] := by simpa [l] using hne
  have hlen : (l.length : Int) = vals.validators.length := by simp [l]
  have havg : minInt64 ≤ l.sum / l.length ∧ l.sum / l.length ≤ maxInt64 :=
    Rescale.average_mem hl fun y hy => by
      obtain ⟨v, hv, rfl⟩ := List.mem_map.mp hy
      exact hp v hv
  have hcomp : vals.computeAvgProposerPriority = some (l.sum / l.length) := by
    have hn : (vals.validators.length : Int) ≠ 0 := by simpa using hne
    rw [hlen] at havg ⊢
    simp only [computeAvgProposerPriority, hn, if_false, havg, and_self, if_true, l]
  refine ⟨vals.mapPriorities fun val => safeSubClip val.proposerPriority (l.sum / l.length), ?_⟩
  simp only [shiftByAvgProposerPriority, isNilOrEmpty, List.isEmpty_iff, hne, if_false, hcomp,
    Option.bind_eq_bind, Option.bind_some, Option.pure_def]

/-! ### Sorting by power -/

/-- `ValidatorsByVotingPower` as a relation: more power first, then the lower address. -/
def PowerLE (a b : Validator) : Prop :=
  b.votingPower < a.votingPower ∨ (a.votingPower = b.votingPower ∧ KeyLE (·.address) a b)

theorem byVotingPower_iff {a b : Validator} : byVotingPower a b = true ↔ PowerLE a b := by
  unfold byVotingPower PowerLE KeyLE
  split_ifs with h
  · simp [h]
  · simp only [decide_eq_true_eq, gt_iff_lt, h, false_and, or_false]

theorem pairwise_sortByVotingPower (l : List Validator) :
    (l.insertionSort fun a b => byVotingPower a b).Pairwise PowerLE := by
  have : Std.Total fun a b : Validator => byVotingPower a b = true := ⟨fun a b => by
    simp only [byVotingPower_iff, PowerLE]
    rcases lt_trichotomy a.votingPower b.votingPower with h | h | h
    · exact .inr (.inl h)
    · rcases Std.Total.total (r := KeyLE (·.address)) a b with hab | hba
      · exact .inl (.inr ⟨h, hab⟩)
      · exact .inr (.inr ⟨h.symm, hba⟩)
    · exact .inl (.inl h)⟩
  have : IsTrans Validator fun a b => byVotingPower a b = true := ⟨fun a b c hab hbc => by
    simp only [byVotingPower_iff, PowerLE] at hab hbc ⊢
    rcases hab with hab | ⟨hab, hab'⟩ <;> rcases hbc with hbc | ⟨hbc, hbc'⟩
    · exact .inl (hbc.trans hab)
    · exact .inl (hbc ▸ hab)
    · exact .inl (hab ▸ hbc)
    · exact .inr ⟨hab.trans hbc, Std.TransCmp.le_trans hab' hbc'⟩⟩
  exact (List.pairwise_insertionSort _ l).imp byVotingPower_iff.mp

/-! ### Applying a change list -/

/-- What `updateWithChangeSet` demands of a change list against a set: `processChanges` accepts it, every
    removal names a validator of the set, something is left, and the new total is within the maximum. -/
structure Applicable (vals : ValidatorSet) (changes : List Validator) : Prop where
  accepts : Accepts changes
  removals : ∀ c ∈ changes, c.votingPower = 0 → c.address ∈ vals.validators.map (·.address)
  ne_nil : applied vals changes ≠ []
  total_le : ((applied vals changes).map (·.2)).sum ≤ maxTotalVotingPower

/-- The total power after the updates of a change list and before its removals: what `verifyUpdates`
    returns and `computeNewPriorities` reads. -/
def tvpAfterUpdates (vals : ValidatorSet) (changes : List Validator) : Int :=
  vals.totalVotingPower + ((changes.filter fun c => 0 < c.votingPower).map (delta · vals)).sum

/-- The priority `computeNewPriorities` gives every new validator: `-(T' + T' >> 3)` of that total. -/
def newPriority (vals : ValidatorSet) (changes : List Validator) : Int :=
  -(tvpAfterUpdates vals changes + (tvpAfterUpdates vals changes >>> 3))

/-- The set `updateWithChangeSet` has built when it rescales: its entries are the applied map, sorted by
    address; a validator of the old set keeps its priority, a new one starts at `newPriority`, and a
    proposer at an address the change list names is detached. -/
structure Merged (vals : ValidatorSet) (changes : List Validator) (W : ValidatorSet) : Prop where
  entries : (W.validators.map (·.entry)).Perm (applied vals changes)
  proposer : W.proposer = vals.proposer.map (vals.detach (changes.map (·.address)))
  sorted : W.validators.Pairwise (KeyLT (·.address))
  carried : ∀ w ∈ W.validators,
    w.proposerPriority = ((vals.getByAddress w.address).map (·.proposerPriority)).getD (newPriority vals changes)

theorem Merged.totalVotingPower_eq {vals W : ValidatorSet} {C : List Validator} (hW : Merged vals C W) :
    W.totalVotingPower = ((applied vals C).map (·.2)).sum := by
  rw [totalVotingPower, ← (hW.entries.map _).sum_eq, List.map_map]
  rfl

/-- On a set of positive powers every entry of the applied map has a positive power. -/
theorem applied_pos {vals : ValidatorSet} {C : List Validator} (hV : vals.Proper) : ∀ x ∈ applied vals C, 0 < x.2 := by
  intro x hx
  simp only [applied, List.mem_append, List.mem_map, List.mem_filter, decide_eq_true_eq] at hx
  rcases hx with ⟨v, ⟨hv, -⟩, rfl⟩ | ⟨c, ⟨-, hc⟩, rfl⟩
  · exact hV.pos v hv
  · exact hc

theorem Merged.pos {vals W : ValidatorSet} {C : List Validator} (hV : vals.Proper) (hW : Merged vals C W) :
    ∀ w ∈ W.validators, 0 < w.votingPower := fun w hw =>
  applied_pos hV w.entry (hW.entries.subset (List.mem_map_of_mem hw))

theorem Merged.totalVotingPower_pos {vals W : ValidatorSet} {C : List Validator} (hV : vals.Proper)
    (hW : Merged vals C W) (hne : W.validators ≠ []) : 0 < W.totalVotingPower :=
  List.sum_pos _ (fun x hx => by
    obtain ⟨v, hv, rfl⟩ := List.mem_map.mp hx
    exact hW.pos hV v hv) (by simpa using hne)

/-- The deltas of the updates `processChanges` returns are those of the changes of positive power. -/
theorem sum_delta_updates {vals : ValidatorSet} {C U D : List Validator} (h : processChanges C = .ok (U, D)) :
    (U.map (delta · vals)).sum = ((C.filter fun c => 0 < c.votingPower).map (delta · vals)).sum := by
  obtain ⟨-, rfl, -⟩ := processChanges_ok.mp h
  exact (((List.perm_insertionSort _ C).filter _).map _).sum_eq

/-- The total after the updates is that of the applied map plus the power the removals take away: at least
    zero, and at most twice the maximum. -/
theorem tvpAfterUpdates_mem {vals : ValidatorSet} {C : List Validator} (hV : vals.Proper) (ha : Applicable vals C) :
    0 ≤ tvpAfterUpdates vals C ∧ tvpAfterUpdates vals C ≤ 2 * maxTotalVotingPower := by
  obtain ⟨U, D, h⟩ : ∃ U D, processChanges C = .ok (U, D) := ⟨_, _, processChanges_ok.mpr ⟨ha.accepts, rfl, rfl⟩⟩
  obtain ⟨-, hDs, -⟩ := processChanges_sorted h
  have happ := sum_applied hV.distinct h
  have hrem₀ : 0 ≤ (D.map (powerOf vals ·.address)).sum := List.sum_nonneg fun x hx => by
    obtain ⟨d, -, rfl⟩ := List.mem_map.mp hx
    exact powerOf_nonneg hV.pos _
  have hremT := sum_powerOf_le hV (nodup_of_pairwise_lt hDs)
  have happ₀ : 0 ≤ ((applied vals C).map (·.2)).sum := List.sum_nonneg fun x hx => by
    obtain ⟨y, hy, rfl⟩ := List.mem_map.mp hx
    exact (applied_pos hV y hy).le
  have hle := ha.total_le
  have hVle := hV.total_le
  rw [tvpAfterUpdates, ← sum_delta_updates h]
  constructor <;> linarith

/-- A new validator starts within `3 * 2^60` of zero. -/
theorem Applicable.abs_newPriority_le {vals : ValidatorSet} {C : List Validator} (hV : vals.Proper)
    (ha : Applicable vals C) : |newPriority vals C| ≤ 3 * 2 ^ 60 := by
  obtain ⟨h₀, h₁⟩ := tvpAfterUpdates_mem hV ha
  have hmax := maxTotalVotingPower_eq
  rw [newPriority, shiftRight_three, abs_le]
  constructor <;> omega

/-- On a valid set the merged priorities are within `3 * 2^60` of zero. -/
theorem Merged.bounded {vals W : ValidatorSet} {C : List Validator} (hV : vals.Valid) (ha : Applicable vals C)
    (hW : Merged vals C W) : ∀ w ∈ W.validators, |w.proposerPriority| ≤ 3 * 2 ^ 60 := by
  intro w hw
  rw [hW.carried w hw]
  cases hg : vals.getByAddress w.address with
  | none => simpa using ha.abs_newPriority_le hV.proper
  | some v => simpa using (hV.bounded v (List.mem_of_find?_eq_some hg)).trans (by norm_num)

/-- On a set of int64 priorities the merged priorities are int64s. -/
theorem Merged.int64 {vals W : ValidatorSet} {C : List Validator} (hV : vals.Proper) (ha : Applicable vals C)
    (hW : Merged vals C W) : ∀ w ∈ W.validators, minInt64 ≤ w.proposerPriority ∧ w.proposerPriority ≤ maxInt64 := by
  intro w hw
  rw [hW.carried w hw]
  cases hg : vals.getByAddress w.address with
  | none =>
    have := abs_le.mp (ha.abs_newPriority_le hV)
    simp only [Option.map_none, Option.getD_none, minInt64, maxInt64]
    constructor <;> linarith
  | some v => simpa using hV.int64 v (List.mem_of_find?_eq_some hg)

/-- Rescaling a merged set within twice its total and centring it: the entries stay, and the priorities
    end at most twice the total apart and from zero, with a sum in `[0, n)`. -/
theorem Merged.rescale_shift {vals W : ValidatorSet} {C : List Validator} (hV : vals.Valid) (ha : Applicable vals C)
    (hW : Merged vals C W) (hne : W.validators ≠ []) (hle : W.totalVotingPower ≤ maxTotalVotingPower) :
    ∃ W₁ W₂, W.rescalePriorities (priorityWindowSizeFactor * W.totalVotingPower) = some W₁ ∧
      W₁.shiftByAvgProposerPriority = some W₂ ∧
      W₂.validators.map (·.entry) = W.validators.map (·.entry) ∧ W₂.proposer = W.proposer ∧
      W₂.Spread (2 * W.totalVotingPower) ∧ 0 ≤ (W₂.validators.map (·.proposerPriority)).sum ∧
      (W₂.validators.map (·.proposerPriority)).sum < W₂.validators.length ∧
      ∀ v ∈ W₂.validators, |v.proposerPriority| ≤ 2 * W.totalVotingPower := by
  have hTpos := hW.totalVotingPower_pos hV.proper hne
  have hmax := maxTotalVotingPower_eq
  obtain ⟨f, hres, hspread, hfb⟩ := @rescalePriorities_spec W (priorityWindowSizeFactor * W.totalVotingPower) _
    hne (hW.bounded hV ha) (by simp only [priorityWindowSizeFactor]; omega)
    (by simp only [priorityWindowSizeFactor, maxInt64]; omega)
  obtain ⟨avg, hsh, hsum₀, hsum, hnear⟩ := shiftByAvgProposerPriority_spec (b := 3 * 2 ^ 60)
    (by simpa using hne) (by simpa using hfb) (by simp only [maxInt64]; norm_num) hspread
  have hprio : ((W.mapPriorities f).mapPriorities fun v => v.proposerPriority - avg).validators.map
      (·.proposerPriority) = (W.mapPriorities f).validators.map fun v => v.proposerPriority - avg := by
    simp [Function.comp_def]
  refine ⟨_, _, hres, hsh, by rw [entry_mapPriorities, entry_mapPriorities], rfl, fun u hu v hv => ?_,
    hprio ▸ hsum₀, by
      rw [hprio, mapPriorities_validators (W.mapPriorities f), List.length_map]
      exact hsum, fun v hv => ?_⟩
  · -- centring moves every priority by the same amount
    simp only [mapPriorities_validators, List.map_map, List.mem_map, Function.comp_apply] at hu hv
    obtain ⟨u, hu, rfl⟩ := hu
    obtain ⟨v, hv, rfl⟩ := hv
    have := hspread _ (List.mem_map_of_mem hu) _ (List.mem_map_of_mem hv)
    simp only [priorityWindowSizeFactor] at this
    simp only
    linarith
  · simp only [mapPriorities_validators, List.map_map, List.mem_map, Function.comp_apply] at hv
    obtain ⟨v, hv, rfl⟩ := hv
    exact hnear _ (List.mem_map_of_mem hv)

/-- The total `verifyUpdates` returns is the total after the updates. -/
theorem verifyUpdates_tvp {vals : ValidatorSet} {C U D : List Validator} (h : processChanges C = .ok (U, D))
    {removed t : Int} (ht : verifyUpdates U vals removed = .ok t) : t = tvpAfterUpdates vals C := by
  rw [verifyUpdates_eq ht, tvpAfterUpdates, sum_delta_updates h]

/-- An applicable change list on a set as the code builds one passes every check, and `updateWithChangeSet`
    merges it in; what is left is to rescale, centre and sort the merged set. -/
theorem updateWithChangeSet_eq_merged {vals : ValidatorSet} {C : List Validator} (hV : vals.Proper)
    (hC : C ≠ []) (ha : Applicable vals C) :
    ∃ W, Merged vals C W ∧ W.validators ≠ [] ∧ W.totalVotingPower ≤ maxTotalVotingPower ∧
      vals.updateWithChangeSet C true = (do
        let W₁ ← orPanic (W.rescalePriorities (priorityWindowSizeFactor * W.totalVotingPower))
        let W₂ ← orPanic W₁.shiftByAvgProposerPriority
        return { W₂ with validators := W₂.validators.insertionSort fun a b => byVotingPower a b }) := by
  obtain ⟨U, D, h⟩ : ∃ U D, processChanges C = .ok (U, D) := ⟨_, _, processChanges_ok.mpr ⟨ha.accepts, rfl, rfl⟩⟩
  obtain ⟨-, hDs, -⟩ := processChanges_sorted h
  have hD : ∀ d ∈ D, d.address ∈ vals.validators.map (·.address) := fun d hd =>
    ha.removals d ((mem_removals h).mp hd).1 ((mem_removals h).mp hd).2
  have hempty : ¬(numNewValidators U vals = 0 ∧ vals.validators.length = D.length) := fun he =>
    ha.ne_nil ((emptySet_iff hV.distinct h hD).mp he)
  -- the checks pass: the removals are in the set and the new total is within the maximum
  have hrem : verifyRemovals D vals = .ok (D.map (powerOf vals ·.address)).sum :=
    (verifyRemovals_ok (nodup_of_pairwise_lt hDs)).mpr ⟨hD, rfl⟩
  have hrem₀ : 0 ≤ (D.map (powerOf vals ·.address)).sum := List.sum_nonneg fun x hx => by
    obtain ⟨d, -, rfl⟩ := List.mem_map.mp hx
    exact powerOf_nonneg hV.pos _
  have hremT := sum_powerOf_le hV (nodup_of_pairwise_lt hDs)
  have happ := sum_applied hV.distinct h
  have hle := ha.total_le
  have hVle := hV.total_le
  obtain ⟨t, ht⟩ := (@verifyUpdates_isOk vals U (D.map (powerOf vals ·.address)).sum (by linarith)).mpr
    (by linarith)
  have htvp := verifyUpdates_tvp h ht
  -- the merged set
  obtain ⟨B, hB, hBp, hBs, hBperm⟩ := applyRemovals_applyUpdates hV.distinct h hD t
  have hentries : (B.validators.map (·.entry)).Perm (applied vals C) := by
    refine (hBperm.map _).trans ?_
    rw [List.map_append, entry_computeNewPriorities, applied]
    obtain ⟨-, rfl, -⟩ := processChanges_ok.mp h
    exact (((List.perm_insertionSort _ C).filter _).map _).append_left _
  have hW : Merged vals C B := by
    refine ⟨hentries, hBp, hBs, fun w hw => ?_⟩
    rcases List.mem_append.mp (hBperm.subset hw) with hw | hw
    · -- a validator of the set kept its priority
      rw [getByAddress_of_mem hV.distinct (List.mem_filter.mp hw).1]
      rfl
    · -- an update has the set's priority at its address, or the new one
      rw [computeNewPriorities_eq] at hw
      obtain ⟨u, -, rfl⟩ := List.mem_map.mp hw
      rw [newPriority, ← htvp]
  have hBtot := hW.totalVotingPower_eq
  have hBne : B.validators ≠ [] := fun hnil => ha.ne_nil (by simpa [hnil] using hW.entries.symm)
  have htot : B.updateTotalVotingPower = some B :=
    updateTotalVotingPower_of_le (fun w hw => (hW.pos hV w hw).le) (hBtot ▸ ha.total_le)
  refine ⟨B, hW, hBne, hBtot ▸ ha.total_le, ?_⟩
  simp only [updateWithChangeSet, if_neg hC, h, except_ok_bind, Bool.not_true, Bool.false_eq_true, false_and,
    if_false, if_neg hempty, hrem, ht, hB, orPanic, htot]

/-- An applicable change list on a valid set: `updateWithChangeSet` merges it in, keeps the total, and
    then rescales, centres and sorts. -/
theorem updateWithChangeSet_of_applicable {vals : ValidatorSet} {C : List Validator} (hV : vals.Valid)
    (hC : C ≠ []) (ha : Applicable vals C) :
    ∃ W, Merged vals C W ∧ ∃ W₁ W₂,
      W.rescalePriorities (priorityWindowSizeFactor * W.totalVotingPower) = some W₁ ∧
      W₁.shiftByAvgProposerPriority = some W₂ ∧
      vals.updateWithChangeSet C true =
        .ok { W₂ with validators := W₂.validators.insertionSort fun a b => byVotingPower a b } := by
  obtain ⟨W, hW, hne, hle, hup⟩ := updateWithChangeSet_eq_merged hV.proper hC ha
  obtain ⟨W₁, W₂, hres, hsh, -⟩ := hW.rescale_shift hV ha hne hle
  refine ⟨W, hW, W₁, W₂, hres, hsh, ?_⟩
  simp only [hup, hres, hsh, orPanic, except_ok_bind]
  rfl

/-- An applicable change list on a set as the code builds one, with any int64 priorities: the rescale and
    the centring do not panic, so `updateWithChangeSet` succeeds. -/
theorem updateWithChangeSet_isOk {vals : ValidatorSet} {C : List Validator} (hV : vals.Proper)
    (hC : C ≠ []) (ha : Applicable vals C) : ∃ R, vals.updateWithChangeSet C true = .ok R := by
  obtain ⟨W, hW, hne, hle, hup⟩ := updateWithChangeSet_eq_merged hV hC ha
  have hTpos := hW.totalVotingPower_pos hV hne
  have hmax := maxTotalVotingPower_eq
  obtain ⟨f, hres, hf⟩ := @rescalePriorities_int64 W (priorityWindowSizeFactor * W.totalVotingPower) hne (hW.int64 hV ha)
    (by simp only [priorityWindowSizeFactor]; omega) (by simp only [priorityWindowSizeFactor]; omega)
  obtain ⟨W₂, hsh⟩ := @shiftByAvgProposerPriority_int64 (W.mapPriorities f) (by simpa using hne)
    (by simpa using hf)
  exact ⟨_, by simp only [hup, hres, hsh, orPanic, except_ok_bind]; rfl⟩

/-! ### The errors -/

/-- `processChanges` fails with one of its own errors, never a panic. -/
theorem processChangesLoop_ne_panic : ∀ {l : List Validator} {prevAddr : Address} {U D : List Validator},
    processChangesLoop l prevAddr U D ≠ .error .panic
  | [], _, _, _ => by simp [processChangesLoop]
  | c :: l, prevAddr, U, D => by
    unfold processChangesLoop
    -- a duplicate, a negative power, a power too high, a removal, an update
    split_ifs
    · simp
    · simp
    · simp
    · exact processChangesLoop_ne_panic
    · exact processChangesLoop_ne_panic

theorem verifyRemovalsLoop_ne_panic {vals : ValidatorSet} : ∀ {D : List Validator} {r : Int},
    verifyRemovalsLoop vals D r ≠ .error .panic
  | [], _ => by simp [verifyRemovalsLoop]
  | d :: D, r => by
    unfold verifyRemovalsLoop
    split
    · simp
    · exact verifyRemovalsLoop_ne_panic

/-- `verifyRemovals` with a removal the set does not hold fails in its scan, before its panic check. -/
theorem verifyRemovals_error {vals : ValidatorSet} {D : List Validator}
    (hD : ¬∀ d ∈ D, d.address ∈ vals.validators.map (·.address)) :
    ∃ e, e ≠ .panic ∧ verifyRemovals D vals = .error e := by
  cases hl : verifyRemovalsLoop vals D 0 with
  | ok r => exact absurd (verifyRemovalsLoop_ok.mp hl).1 hD
  | error e =>
    refine ⟨e, fun he => verifyRemovalsLoop_ne_panic (he ▸ hl), ?_⟩
    simp only [verifyRemovals, hl]
    rfl

/-- The only error of `verifyUpdates` is the overflow. -/
theorem verifyUpdatesLoop_error {vals : ValidatorSet} {removedPower : Int} :
    ∀ {L : List Validator} {s : Int} {e : ChangeSetError},
      verifyUpdatesLoop vals removedPower L s = .error e → e = .totalVotingPowerOverflow
  | [], _, _, h => by simp [verifyUpdatesLoop] at h
  | u :: L, s, e, h => by
    by_cases hgt : s + delta u vals > maxTotalVotingPower
    · simp only [verifyUpdatesLoop, hgt, if_true, Except.error.injEq] at h
      exact h.symm
    · simp only [verifyUpdatesLoop, hgt, if_false] at h
      exact verifyUpdatesLoop_error h

/-- `verifyUpdates` reports an overflow exactly when the total after all changes passes the maximum. -/
theorem verifyUpdates_eq_error_iff {vals : ValidatorSet} {U : List Validator} {removed : Int}
    (hs : vals.totalVotingPower - removed ≤ maxTotalVotingPower) :
    verifyUpdates U vals removed = .error .totalVotingPowerOverflow ↔
      maxTotalVotingPower < vals.totalVotingPower - removed + (U.map (delta · vals)).sum := by
  rw [← not_le, ← verifyUpdates_isOk hs]
  constructor
  · rintro h ⟨t, ht⟩
    rw [h] at ht
    cases ht
  · intro h
    cases hv : verifyUpdates U vals removed with
    | ok t => exact absurd ⟨t, hv⟩ h
    | error e => rw [verifyUpdatesLoop_error hv]

/-- A change list that is not applicable to a valid set is rejected by one of the checks, before the set
    is changed: with an error of its own, never a panic. -/
theorem updateWithChangeSet_of_not_applicable {vals : ValidatorSet} {C : List Validator} (hV : vals.Proper)
    (hC : C ≠ []) (ha : ¬Applicable vals C) :
    ∃ e, e ≠ .panic ∧ vals.updateWithChangeSet C true = .error e := by
  cases h : processChanges C with
  | error e =>
    refine ⟨e, fun he => processChangesLoop_ne_panic (he ▸ h), ?_⟩
    simp only [updateWithChangeSet, if_neg hC, h]
    rfl
  | ok p =>
    obtain ⟨U, D⟩ := p
    have hacc := (processChanges_ok.mp h).1
    obtain ⟨-, hDs, -⟩ := processChanges_sorted h
    by_cases hempty : numNewValidators U vals = 0 ∧ vals.validators.length = D.length
    · refine ⟨.emptySet, by simp, ?_⟩
      simp only [updateWithChangeSet, if_neg hC, h, except_ok_bind, Bool.not_true, Bool.false_eq_true, false_and,
        if_false, if_pos hempty]
      rfl
    by_cases hD : ∀ d ∈ D, d.address ∈ vals.validators.map (·.address)
    · -- the removals pass, so the new total is what fails
      have hrem : verifyRemovals D vals = .ok (D.map (powerOf vals ·.address)).sum :=
        (verifyRemovals_ok (nodup_of_pairwise_lt hDs)).mpr ⟨hD, rfl⟩
      have hne : applied vals C ≠ [] := fun he => hempty ((emptySet_iff hV.distinct h hD).mpr he)
      have hgt : maxTotalVotingPower < ((applied vals C).map (·.2)).sum := by
        by_contra hle
        exact ha ⟨hacc, fun c hc hz => hD c ((mem_removals h).mpr ⟨hc, hz⟩), hne, not_lt.mp hle⟩
      have hs : vals.totalVotingPower - (D.map (powerOf vals ·.address)).sum ≤ maxTotalVotingPower := by
        have := List.sum_nonneg fun x (hx : x ∈ D.map (powerOf vals ·.address)) => by
          obtain ⟨d, -, rfl⟩ := List.mem_map.mp hx
          exact powerOf_nonneg hV.pos _
        linarith [hV.total_le]
      have hu : verifyUpdates U vals (D.map (powerOf vals ·.address)).sum = .error .totalVotingPowerOverflow :=
        (verifyUpdates_eq_error_iff hs).mpr (by linarith [sum_applied hV.distinct h])
      refine ⟨.totalVotingPowerOverflow, by simp, ?_⟩
      simp only [updateWithChangeSet, if_neg hC, h, except_ok_bind, Bool.not_true, Bool.false_eq_true, false_and,
        if_false, if_neg hempty, hrem, hu]
      rfl
    · -- a removal is not in the set
      obtain ⟨e, he, hr⟩ := verifyRemovals_error hD
      refine ⟨e, he, ?_⟩
      simp only [updateWithChangeSet, if_neg hC, h, except_ok_bind, Bool.not_true, Bool.false_eq_true, false_and,
        if_false, if_neg hempty, hr]
      rfl
/-! ### The order of the changes -/

/-- `processChanges` gives one result for every order of a change list with distinct addresses: both
    sorts are sorted by address and permutations of each other. -/
theorem processChanges_perm {C C' : List Validator} (hnd : (C.map (·.address)).Nodup) (hp : C'.Perm C) :
    processChanges C' = processChanges C := by
  unfold processChanges
  congr 1
  exact eq_of_perm (pairwise_sortByAddress C') (pairwise_sortByAddress C)
    (((List.perm_insertionSort _ C').map _).nodup_iff.mpr ((hp.map _).nodup_iff.mpr hnd))
    (((List.perm_insertionSort _ C').trans hp).trans (List.perm_insertionSort _ C).symm)

theorem updateWithChangeSet_perm {vals : ValidatorSet} {C C' : List Validator} (hnd : (C.map (·.address)).Nodup)
    (hp : C'.Perm C) (allowDeletes : Bool) :
    vals.updateWithChangeSet C' allowDeletes = vals.updateWithChangeSet C allowDeletes := by
  have hnil : C' = [] ↔ C = [] := ⟨fun h => (h ▸ hp).nil_eq.symm, fun h => (h ▸ hp).eq_nil⟩
  simp only [updateWithChangeSet, hnil, processChanges_perm hnd hp]

/-! ### `UpdateWithChangeSet` -/

theorem map_entry_fst (l : List Validator) : (l.map (·.entry)).map Prod.fst = l.map (·.address) := by
  simp [Function.comp_def, Validator.entry]

theorem map_entry_snd (l : List Validator) : (l.map (·.entry)).map Prod.snd = l.map (·.votingPower) := by
  simp [Function.comp_def, Validator.entry]

/-- Sorted by power, with distinct addresses: more power first, then the lower address. -/
theorem PowerLE.lt_of_ne {a b : Validator} (h : PowerLE a b) (hne : a.address ≠ b.address) :
    b.votingPower < a.votingPower ∨ (a.votingPower = b.votingPower ∧ compare a.address b.address = .lt) :=
  h.imp_right fun h => ⟨h.1, h.2.lt_of_ne hne⟩

/-- A change list is not applicable exactly when one of the conditions the checks test fails. -/
theorem not_applicable_iff {vals : ValidatorSet} {C : List Validator} :
    ¬Applicable vals C ↔ ¬(C.map (·.address)).Nodup ∨ (∃ c ∈ C, c.address = []) ∨
      (∃ c ∈ C, c.votingPower < 0 ∨ maxTotalVotingPower < c.votingPower) ∨
      (∃ c ∈ C, c.votingPower = 0 ∧ c.address ∉ vals.validators.map (·.address)) ∨
      applied vals C = [] ∨ maxTotalVotingPower < ((applied vals C).map (·.2)).sum := by
  have happ : Applicable vals C ↔ (C.map (·.address)).Nodup ∧ (∀ c ∈ C, c.address ≠ []) ∧
      (∀ c ∈ C, 0 ≤ c.votingPower ∧ c.votingPower ≤ maxTotalVotingPower) ∧
      (∀ c ∈ C, c.votingPower = 0 → c.address ∈ vals.validators.map (·.address)) ∧
      applied vals C ≠ [] ∧ ((applied vals C).map (·.2)).sum ≤ maxTotalVotingPower :=
    ⟨fun ⟨⟨h₁, h₂, h₃⟩, h₄, h₅, h₆⟩ => ⟨h₁, h₂, h₃, h₄, h₅, h₆⟩,
      fun ⟨h₁, h₂, h₃, h₄, h₅, h₆⟩ => ⟨⟨h₁, h₂, h₃⟩, h₄, h₅, h₆⟩⟩
  rw [happ]
  simp only [not_and_or, not_forall, not_le, ne_eq, not_not, exists_prop]

/-- What `UpdateWithChangeSet` gives back for a change list applicable to a valid set: the applied map,
    sorted by power and then address, with the priorities of the merged set rescaled within twice the total
    and centred, and a valid set again. -/
structure Updated (vals : ValidatorSet) (changes : List Validator) (R : ValidatorSet) : Prop where
  entries : (R.validators.map (·.entry)).Perm (applied vals changes)
  nodup : (R.validators.map (·.address)).Nodup
  sorted : R.validators.Pairwise fun a b =>
    b.votingPower < a.votingPower ∨ (a.votingPower = b.votingPower ∧ compare a.address b.address = .lt)
  total : R.totalVotingPower = ((applied vals changes).map (·.2)).sum
  carried : ∃ W W₁ W₂, Merged vals changes W ∧
    W.rescalePriorities (priorityWindowSizeFactor * W.totalVotingPower) = some W₁ ∧
    W₁.shiftByAvgProposerPriority = some W₂ ∧
    R = { W₂ with validators := W₂.validators.insertionSort fun a b => byVotingPower a b }
  sum_mem : 0 ≤ (R.validators.map (·.proposerPriority)).sum ∧
    (R.validators.map (·.proposerPriority)).sum < R.validators.length
  spread : R.Spread (2 * R.totalVotingPower)
  valid : R.Valid

theorem UpdateWithChangeSet_updated {vals R : ValidatorSet} {C : List Validator} (hV : vals.Valid) (hC : C ≠ [])
    (h : vals.UpdateWithChangeSet C = .ok R) :
    Updated vals C R ∧ ∀ C', C'.Perm C → vals.UpdateWithChangeSet C' = .ok R := by
  have ha : Applicable vals C := by
    by_contra ha
    obtain ⟨e, -, he⟩ := updateWithChangeSet_of_not_applicable hV.proper hC ha
    rw [UpdateWithChangeSet, he] at h
    cases h
  refine ⟨?_, fun C' hp => (updateWithChangeSet_perm ha.accepts.nodup hp true).trans h⟩
  obtain ⟨W, hW, W₁, W₂, hres, hsh, hup⟩ := updateWithChangeSet_of_applicable hV hC ha
  have hR := Except.ok.inj (h.symm.trans hup)
  have hle : W.totalVotingPower ≤ maxTotalVotingPower := hW.totalVotingPower_eq ▸ ha.total_le
  have hne : W.validators ≠ [] := fun hnil => ha.ne_nil (by simpa [hnil] using hW.entries.symm)
  obtain ⟨W₁', W₂', hres', hsh', hent, -, hspread, hsum₀, hsum, hbound⟩ := hW.rescale_shift hV ha hne hle
  obtain rfl : W₁ = W₁' := Option.some.inj (hres.symm.trans hres')
  obtain rfl : W₂ = W₂' := Option.some.inj (hsh.symm.trans hsh')
  -- the sort by power is a permutation of the centred set, whose entries are the merged set's
  have hp : R.validators.Perm W₂.validators := hR ▸ List.perm_insertionSort _ _
  have hentries : (R.validators.map (·.entry)).Perm (applied vals C) := (hp.map _).trans (hent ▸ hW.entries)
  have hnd : (R.validators.map (·.address)).Nodup := by
    rw [← map_entry_fst, ((hp.map _).map _).nodup_iff, hent, map_entry_fst]
    exact nodup_of_pairwise_lt hW.sorted
  have htot : R.totalVotingPower = ((applied vals C).map (·.2)).sum := by
    rw [totalVotingPower, ← map_entry_snd]
    exact (hentries.map _).sum_eq
  have hRW : R.totalVotingPower = W.totalVotingPower := htot.trans hW.totalVotingPower_eq.symm
  have hmax := maxTotalVotingPower_eq
  refine ⟨hentries, hnd, ?_, htot, ⟨W, W₁, W₂, hW, hres, hsh, hR⟩, ?_, ?_, ?_⟩
  · have hsorted : R.validators.Pairwise PowerLE := hR ▸ pairwise_sortByVotingPower _
    exact (hsorted.and (List.pairwise_map.mp hnd)).imp fun h => h.1.lt_of_ne h.2
  · rw [(hp.map _).sum_eq, hp.length_eq]
    exact ⟨hsum₀, hsum⟩
  · intro u hu v hv
    rw [hRW]
    exact hspread u (hp.subset hu) v (hp.subset hv)
  · refine ⟨List.pairwise_map.mp hnd, fun w hw => applied_pos hV.proper w.entry (hentries.subset (List.mem_map_of_mem hw)),
      htot ▸ ha.total_le, fun w hw => ?_⟩
    -- centred priorities are within twice the total of zero, and the total within the maximum
    have := hbound w (hp.subset hw)
    exact this.trans (by linarith)

theorem UpdateWithChangeSet_updated_pair :
    Updated ⟨[⟨[1], 1, 0⟩], none⟩ [⟨[2], 1, 0⟩] ⟨[⟨[1], 1, 1⟩, ⟨[2], 1, -1⟩], none⟩ ∧
      ∀ C', C'.Perm [⟨[2], 1, 0⟩] →
        (ValidatorSet.mk [⟨[1], 1, 0⟩] none).UpdateWithChangeSet C' = .ok ⟨[⟨[1], 1, 1⟩, ⟨[2], 1, -1⟩], none⟩ :=
  UpdateWithChangeSet_updated (by decide) (by simp) rfl

/-- Priorities of an int64 set may be wider apart than the window: `computeMaxMinPriorityDiff` wraps
    `2^62 - (-2^62)` to `-2^63`, which is no more than twice the total, so nothing is rescaled. -/
theorem UpdateWithChangeSet_wide_spread :
    let V : ValidatorSet := ⟨[⟨[1], 1, 2 ^ 62⟩, ⟨[2], 1, -2 ^ 62⟩], none⟩
    V.UpdateWithChangeSet [⟨[1], 1, 0⟩] = .ok V ∧ V.Distinct ∧ V.totalVotingPower ≤ maxTotalVotingPower ∧
      ¬V.Spread (2 * V.totalVotingPower) :=
  ⟨rfl, by decide, by decide, by decide⟩

theorem UpdateWithChangeSet_error_iff {vals : ValidatorSet} {C : List Validator} (hV : vals.Proper) :
    ((∃ e, vals.UpdateWithChangeSet C = .error e) ↔ C ≠ [] ∧
      (¬(C.map (·.address)).Nodup ∨ (∃ c ∈ C, c.address = []) ∨
        (∃ c ∈ C, c.votingPower < 0 ∨ maxTotalVotingPower < c.votingPower) ∨
        (∃ c ∈ C, c.votingPower = 0 ∧ c.address ∉ vals.validators.map (·.address)) ∨
        applied vals C = [] ∨ maxTotalVotingPower < ((applied vals C).map (·.2)).sum)) ∧
    vals.UpdateWithChangeSet C ≠ .error .panic ∧
    ∀ (U : List Validator) (removed : Int), vals.totalVotingPower - removed ≤ maxTotalVotingPower →
      (verifyUpdates U vals removed = .error .totalVotingPowerOverflow ↔
        maxTotalVotingPower < vals.totalVotingPower - removed + (U.map (delta · vals)).sum) := by
  -- an empty change list and an applicable one succeed; any other fails with an error of a check
  have hnil : C = [] → vals.UpdateWithChangeSet C = .ok vals := fun h => by
    simp [UpdateWithChangeSet, updateWithChangeSet, h]
  have hok : C ≠ [] → Applicable vals C → ∃ R, vals.UpdateWithChangeSet C = .ok R := fun hC ha =>
    updateWithChangeSet_isOk hV hC ha
  refine ⟨⟨?_, ?_⟩, ?_, fun U removed hs => verifyUpdates_eq_error_iff hs⟩
  · rintro ⟨e, he⟩
    have hC : C ≠ [] := fun h => by rw [hnil h] at he; cases he
    refine ⟨hC, not_applicable_iff.mp fun ha => ?_⟩
    obtain ⟨R, hR⟩ := hok hC ha
    rw [hR] at he
    cases he
  · rintro ⟨hC, hna⟩
    obtain ⟨e, -, he⟩ := updateWithChangeSet_of_not_applicable hV hC (not_applicable_iff.mpr hna)
    exact ⟨e, he⟩
  · intro hp
    by_cases hC : C = []
    · rw [hnil hC] at hp
      cases hp
    by_cases ha : Applicable vals C
    · obtain ⟨R, hR⟩ := hok hC ha
      rw [hR] at hp
      cases hp
    · obtain ⟨e, hne, he⟩ := updateWithChangeSet_of_not_applicable hV hC ha
      rw [UpdateWithChangeSet, he] at hp
      exact hne (Except.error.inj hp)

theorem UpdateWithChangeSet_error_iff_removal :
    let V : ValidatorSet := ⟨[⟨[1], 1, 0⟩], none⟩
    ((∃ e, V.UpdateWithChangeSet [⟨[1], 0, 0⟩] = .error e) ↔ [⟨[1], 0, 0⟩] ≠ ([] : List Validator) ∧
      (¬(([⟨[1], 0, 0⟩] : List Validator).map (·.address)).Nodup ∨ (∃ c ∈ ([⟨[1], 0, 0⟩] : List Validator), c.address = []) ∨
        (∃ c ∈ ([⟨[1], 0, 0⟩] : List Validator), c.votingPower < 0 ∨ maxTotalVotingPower < c.votingPower) ∨
        (∃ c ∈ ([⟨[1], 0, 0⟩] : List Validator), c.votingPower = 0 ∧ c.address ∉ V.validators.map (·.address)) ∨
        applied V [⟨[1], 0, 0⟩] = [] ∨ maxTotalVotingPower < ((applied V [⟨[1], 0, 0⟩]).map (·.2)).sum)) ∧
    V.UpdateWithChangeSet [⟨[1], 0, 0⟩] ≠ .error .panic ∧
    ∀ (U : List Validator) (removed : Int), V.totalVotingPower - removed ≤ maxTotalVotingPower →
      (verifyUpdates U V removed = .error .totalVotingPowerOverflow ↔
        maxTotalVotingPower < V.totalVotingPower - removed + (U.map (delta · V)).sum) :=
  UpdateWithChangeSet_error_iff (by decide)

/-- Where the conditions and the code part. The nil address that `processChanges` starts its scan from: a
    change at the empty address is taken for a duplicate, although its list has no duplicate, its power is
    in range, and the set it would give is neither empty nor over the maximum. A set with a repeated
    address: removing that address succeeds although nothing would be left. A set with a negative power:
    an applicable change panics in `updateTotalVotingPower`, whose running sum in address order passes the
    maximum before the negative power brings the total back. -/
theorem UpdateWithChangeSet_error_iff_counterexamples :
    (let C : List Validator := [⟨[], 1, 0⟩];
      (ValidatorSet.mk [] none).UpdateWithChangeSet C = .error (.duplicateEntry []) ∧ (C.map (·.address)).Nodup ∧
        (∀ c ∈ C, 0 < c.votingPower ∧ c.votingPower ≤ maxTotalVotingPower) ∧ applied ⟨[], none⟩ C = [([], 1)]) ∧
    (let V : ValidatorSet := ⟨[⟨[1], 1, 0⟩, ⟨[1], 1, 0⟩], none⟩;
      (∃ R, V.UpdateWithChangeSet [⟨[1], 0, 0⟩] = .ok R) ∧ V.totalVotingPower ≤ maxTotalVotingPower ∧
        applied V [⟨[1], 0, 0⟩] = []) ∧
    (let V : ValidatorSet := ⟨[⟨[1], maxTotalVotingPower - 5, 0⟩, ⟨[3], -10, 0⟩], none⟩;
      V.UpdateWithChangeSet [⟨[2], 12, 0⟩] = .error .panic ∧ V.totalVotingPower ≤ maxTotalVotingPower ∧
        Applicable V [⟨[2], 12, 0⟩]) :=
  ⟨⟨rfl, by decide, by decide, rfl⟩, ⟨⟨_, rfl⟩, by decide, rfl⟩,
    ⟨rfl, by decide, ⟨⟨by decide, by decide, by decide⟩, by decide, by decide, by decide⟩⟩⟩

end ValidatorSet

end CometBFT
