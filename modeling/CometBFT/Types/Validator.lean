import Mathlib

/-! Validators and the int64 arithmetic of proposer priorities (`types/validator.go`,
    `types/validator_set.go`).

    Priorities and powers are Go `int64`s. They are modelled as `Int`: `safeAdd` and `safeSub` check
    the int64 range before they compute, and where the code computes without a check the result goes
    through `wrapInt64`, the two's-complement wrap. An address is a byte string ordered by
    `bytes.Compare`, which is Lean's `compare` on `List UInt8`. -/

namespace CometBFT

/-! ### Go's error returns

    A function that returns an error is an `Except`; a sequence of calls that return on the first error is a
    `do` block, peeled apart by `except_bind_eq_ok`. -/

theorem except_bind_eq_ok {ε α β : Type} {x : Except ε α} {f : α → Except ε β} {b : β} :
    x >>= f = .ok b ↔ ∃ a, x = .ok a ∧ f a = .ok b := by
  cases x <;> simp [bind, Except.bind]

theorem except_ok_bind {ε α β : Type} (a : α) (f : α → Except ε β) : (Except.ok a >>= f) = f a := rfl

theorem except_map_eq_ok {ε α β : Type} {f : α → β} {x : Except ε α} {r : β} :
    f <$> x = .ok r ↔ ∃ a, x = .ok a ∧ f a = r := by
  cases x <;> simp [Except.map_ok, Except.map_error]

theorem mapError_eq_ok {ε ε' α : Type} {x : Except ε α} {f : ε → ε'} {a : α} :
    x.mapError f = .ok a ↔ x = .ok a := by
  cases x <;> simp [Except.mapError]

/-! ### int64 -/

/-- `math.MaxInt64`. -/
def maxInt64 : Int := 2 ^ 63 - 1

/-- `math.MinInt64`. -/
def minInt64 : Int := -2 ^ 63

/-- The value of an `int64` computation that overflowed: Go wraps modulo `2^64`. -/
def wrapInt64 (x : Int) : Int := x.bmod (2 ^ 64)

theorem wrapInt64_of_mem {x : Int} (h₁ : minInt64 ≤ x) (h₂ : x ≤ maxInt64) : wrapInt64 x = x := by
  unfold wrapInt64
  apply Int.bmod_eq_of_le <;> simp only [minInt64, maxInt64] at h₁ h₂ <;> omega

/-- A wrapped value is an int64. -/
theorem wrapInt64_mem (x : Int) : minInt64 ≤ wrapInt64 x ∧ wrapInt64 x ≤ maxInt64 := by
  unfold wrapInt64 minInt64 maxInt64 Int.bmod
  dsimp only
  split_ifs <;> omega

/-- A value past `MaxInt64` by less than `2^64` wraps to a negative one. -/
theorem wrapInt64_sub {x : Int} (h₁ : maxInt64 < x) (h₂ : x ≤ maxInt64 + 2 ^ 64) : wrapInt64 x = x - 2 ^ 64 := by
  unfold wrapInt64 Int.bmod
  simp only [maxInt64] at h₁ h₂
  dsimp only
  split_ifs <;> omega

/-- `safeAdd`: the sum, and whether it overflows int64. -/
def safeAdd (a b : Int) : Int × Bool :=
  if b > 0 ∧ a > maxInt64 - b then (-1, true)
  else if b < 0 ∧ a < minInt64 - b then (-1, true)
  else (a + b, false)

/-- `safeSub`: the difference, and whether it overflows int64. -/
def safeSub (a b : Int) : Int × Bool :=
  if b > 0 ∧ a < minInt64 + b then (-1, true)
  else if b < 0 ∧ a > maxInt64 + b then (-1, true)
  else (a - b, false)

/-- `safeAddClip`: the sum, clipped to the int64 range. -/
def safeAddClip (a b : Int) : Int :=
  let (c, overflow) := safeAdd a b
  if overflow then (if b < 0 then minInt64 else maxInt64) else c

/-- `safeSubClip`: the difference, clipped to the int64 range. -/
def safeSubClip (a b : Int) : Int :=
  let (c, overflow) := safeSub a b
  if overflow then (if b > 0 then minInt64 else maxInt64) else c

/-- The clipping additions are exact on results in the int64 range. -/
theorem safeAddClip_eq {a b : Int} (h₁ : minInt64 ≤ a + b) (h₂ : a + b ≤ maxInt64) : safeAddClip a b = a + b := by
  have : ¬(b > 0 ∧ a > maxInt64 - b) := by omega
  have : ¬(b < 0 ∧ a < minInt64 - b) := by omega
  simp [safeAddClip, safeAdd, *]

theorem safeSubClip_eq {a b : Int} (h₁ : minInt64 ≤ a - b) (h₂ : a - b ≤ maxInt64) : safeSubClip a b = a - b := by
  have : ¬(b > 0 ∧ a < minInt64 + b) := by omega
  have : ¬(b < 0 ∧ a > maxInt64 + b) := by omega
  simp [safeSubClip, safeSub, *]

/-- `safeMul`: the product, and whether it overflows int64. A negated operand wraps, as in Go. -/
def safeMul (a b : Int) : Int × Bool :=
  if a = 0 ∨ b = 0 then (0, false)
  else
    let absOfB := if b < 0 then wrapInt64 (-b) else b
    let absOfA := if a < 0 then wrapInt64 (-a) else a
    if absOfA > maxInt64.tdiv absOfB then (0, true)
    else (wrapInt64 (a * b), false)

/-- On nonnegative operands `safeMul` overflows exactly when the product passes `MaxInt64`, and is exact
    otherwise. -/
theorem safeMul_of_nonneg {a b : Int} (ha : 0 ≤ a) (hb : 0 ≤ b) :
    safeMul a b = if a * b ≤ maxInt64 then (a * b, false) else (0, true) := by
  by_cases h0 : a = 0 ∨ b = 0
  · rcases h0 with rfl | rfl <;> simp [safeMul, maxInt64]
  obtain ⟨ha0, hb0⟩ := not_or.mp h0
  have hdiv : a ≤ maxInt64.tdiv b ↔ a * b ≤ maxInt64 := by
    rw [Int.tdiv_eq_ediv_of_nonneg (by simp [maxInt64])]
    exact Int.le_ediv_iff_mul_le (by omega)
  have hnb : ¬b < 0 := by omega
  have hna : ¬a < 0 := by omega
  simp only [safeMul, ha0, hb0, or_self, if_false, hnb, hna, gt_iff_lt, ← not_le, hdiv]
  split_ifs with h
  · rw [wrapInt64_of_mem (by simp only [minInt64]; nlinarith) h]
  · rfl

/-! ### Validators -/

/-- `Address`: a byte string. -/
abbrev Address := List UInt8

/-- Addresses are compared with `==`, which is equality; named once so that every membership test on
    addresses uses this one proof. -/
instance Address.lawfulBEq : LawfulBEq Address := inferInstance

/-- `Validator`, with the fields the proposer rotation and the change sets read. The public key is
    left out: only `ValidateBasic` and the hashes read it. -/
structure Validator where
  address : Address
  votingPower : Int
  proposerPriority : Int
  deriving Repr, DecidableEq

/-- `MaxTotalVotingPower = int64(math.MaxInt64) / 8`. -/
def maxTotalVotingPower : Int := maxInt64 / 8

/-- `PriorityWindowSizeFactor`. -/
def priorityWindowSizeFactor : Int := 2

theorem maxTotalVotingPower_eq : maxTotalVotingPower = 2 ^ 60 - 1 := by
  simp [maxTotalVotingPower, maxInt64]

namespace Validator

/-- `CompareProposerPriority`: the one of `v` and `other` with the higher priority, on a tie the one
    with the smaller address. A nil receiver gives `other`; `none` is the panic on two validators with
    the same priority and address. -/
def compareProposerPriority (v : Option Validator) (other : Validator) : Option Validator :=
  match v with
  | none => some other
  | some v =>
    if v.proposerPriority > other.proposerPriority then some v
    else if v.proposerPriority < other.proposerPriority then some other
    else
      match compare v.address other.address with
      | .lt => some v
      | .gt => some other
      | .eq => none

/-- `v` is ahead of `w` in the proposer queue: a higher priority, or the same one and a smaller
    address. -/
def Ahead (v w : Validator) : Prop :=
  w.proposerPriority < v.proposerPriority ∨
    (v.proposerPriority = w.proposerPriority ∧ compare v.address w.address = .lt)

instance (v w : Validator) : Decidable (Ahead v w) := inferInstanceAs (Decidable (_ ∨ _))

theorem Ahead.trans {u v w : Validator} (h₁ : Ahead u v) (h₂ : Ahead v w) : Ahead u w := by
  rcases h₁ with h₁ | ⟨h₁, h₁'⟩ <;> rcases h₂ with h₂ | ⟨h₂, h₂'⟩
  · exact Or.inl (by omega)
  · exact Or.inl (by omega)
  · exact Or.inl (by omega)
  · exact Or.inr ⟨h₁.trans h₂, Std.TransCmp.lt_trans h₁' h₂'⟩

theorem Ahead.le {v w : Validator} (h : Ahead v w) : w.proposerPriority ≤ v.proposerPriority := by
  rcases h with h | ⟨h, -⟩ <;> omega

theorem compareProposerPriority_some {v other r : Validator}
    (h : compareProposerPriority (some v) other = some r) :
    (r = v ∧ Ahead v other) ∨ (r = other ∧ Ahead other v) := by
  simp only [compareProposerPriority] at h
  split_ifs at h with h₁ h₂
  · exact Or.inl ⟨(Option.some.inj h).symm, Or.inl h₁⟩
  · exact Or.inr ⟨(Option.some.inj h).symm, Or.inl h₂⟩
  · have hp : v.proposerPriority = other.proposerPriority := by omega
    split at h
    · next hc => exact Or.inl ⟨(Option.some.inj h).symm, Or.inr ⟨hp, hc⟩⟩
    · next hc =>
      refine Or.inr ⟨(Option.some.inj h).symm, Or.inr ⟨hp.symm, ?_⟩⟩
      rw [@Std.OrientedCmp.eq_swap _ compare _ other.address v.address, hc]
      rfl
    · cases h

/-- On distinct addresses `CompareProposerPriority` does not panic. -/
theorem compareProposerPriority_isSome {v other : Validator} (h : v.address ≠ other.address) :
    (compareProposerPriority (some v) other).isSome := by
  simp only [compareProposerPriority]
  split_ifs
  · rfl
  · rfl
  · split
    · rfl
    · rfl
    · next hc => exact absurd (Std.LawfulEqCmp.eq_of_compare hc) h

end Validator

end CometBFT
