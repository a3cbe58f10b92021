import CometBFT.Lib.Channel

/-! The light client's detector (`light/detector.go`). One goroutine per witness fetches the witness's
    block at the height of the primary's last header, through `getTargetBlockOrLatest` when the witness is
    behind, and reports on the channel `errc`; `detectDivergence` reads as many values as there are
    witnesses and takes a `nil` as a witness's confirmation of the header.

    A witness is its answers: the answer to its `n`-th `LightBlock` call for the height asked (`0` for the
    latest), so that it may answer anything at any time. How the examination of a conflicting block ends
    (`examineConflictingHeaderAgainstTrace`, which calls the providers again and verifies by skipping) is
    the parameter `handleConflictingHeaders`: `nil` when the witness's trace cannot be verified,
    `ErrLightClientAttack` otherwise.

    `compareNewHeaderWithWitness` has no `return` after it sends `errConflictingHeaders`, so a witness whose
    block has another hash sends a `nil` after the conflict, and the collector may count it as a match. -/

namespace CometBFT

namespace Light

/-- The fields of a `types.LightBlock`, and of the primary's `SignedHeader`, that the detector reads. -/
structure LightBlock where
  height : Int64
  time : Int
  hash : List UInt8
  deriving Repr, DecidableEq

/-- The errors of a provider's `LightBlock` call that the detector tells apart; `other` is any other. -/
inductive ProviderError
  | noResponse
  | lightBlockNotFound
  | heightTooHigh
  | deadlineExceeded
  | canceled
  | other (msg : String)
  deriving Repr, DecidableEq

/-- A witness: its answer to its `n`-th `LightBlock` call, for the height asked. -/
abbrev Witness := Nat → Int64 → Except ProviderError LightBlock

/-- The values sent on `errc`: `nil`, `errConflictingHeaders`, `errBadWitness`, or a provider's error as
    it came. -/
inductive ErrcValue
  | nil
  | conflictingHeaders (block : LightBlock) (witnessIndex : Nat)
  | badWitness (reason : ProviderError) (witnessIndex : Nat)
  | error (err : ProviderError)
  deriving Repr, DecidableEq

/-- The errors `detectDivergence` returns. -/
inductive DetectorError
  | nilOrSingleTrace
  | noWitnesses
  | failedHeaderCrossReferencing
  | lightClientAttack
  | provider (err : ProviderError)
  deriving Repr, DecidableEq

/-- `getTargetBlockOrLatest` from the witness's `call`-th call: the next call's number, and whether the
    block is at the target height, with the block. -/
def getTargetBlockOrLatest (witness : Witness) (call : Nat) (height : Int64) :
    Nat × Except ProviderError (Bool × LightBlock) :=
  match witness call 0 with
  | .error err => (call + 1, .error err)
  | .ok lightBlock =>
    if lightBlock.height = height then (call + 1, .ok (true, lightBlock))
    else if lightBlock.height > height then
      match witness (call + 1) height with
      | .error err => (call + 2, .error err)
      | .ok lightBlock => (call + 2, .ok (true, lightBlock))
    else (call + 1, .ok (false, lightBlock))

/-- The end of `compareNewHeaderWithWitness`: a block with another hash is sent as conflicting, and `nil`
    is sent after it as after a match. -/
def compareHashes (h lightBlock : LightBlock) (witnessIndex : Nat) : List ErrcValue :=
  (if h.hash ≠ lightBlock.hash then [.conflictingHeaders lightBlock witnessIndex] else []) ++ [.nil]

/-- `compareNewHeaderWithWitness`: what the goroutine of the witness `witnessIndex` sends on `errc`. -/
def compareNewHeaderWithWitness (h : LightBlock) (witness : Witness) (witnessIndex : Nat) : List ErrcValue :=
  match witness 0 h.height with
  | .ok lightBlock => compareHashes h lightBlock witnessIndex
  | .error .noResponse => [.error .noResponse]
  | .error .lightBlockNotFound => [.error .lightBlockNotFound]
  | .error .deadlineExceeded => [.error .deadlineExceeded]
  | .error .canceled => [.error .canceled]
  | .error .heightTooHigh =>
    match getTargetBlockOrLatest witness 1 h.height with
    | (_, .error err) => [.error err]
    | (_, .ok (true, lightBlock)) => compareHashes h lightBlock witnessIndex
    | (call, .ok (false, lightBlock)) =>
      if ¬lightBlock.time < h.time then [.conflictingHeaders lightBlock witnessIndex]
      else
        -- asked again after waiting `2 * maxClockDrift + maxBlockLag`
        match getTargetBlockOrLatest witness call h.height with
        | (_, .error err) =>
          if err = .canceled ∨ err = .deadlineExceeded then [.error err] else [.badWitness err witnessIndex]
        | (_, .ok (true, lightBlock)) => compareHashes h lightBlock witnessIndex
        | (_, .ok (false, lightBlock)) =>
          if ¬lightBlock.time < h.time then [.conflictingHeaders lightBlock witnessIndex] else [.error .noResponse]
  | .error (.other msg) => [.badWitness (.other msg) witnessIndex]

/-- What the collector loop of `detectDivergence` keeps. -/
structure Collected where
  headerMatched : Bool
  witnessesToRemove : List Nat

/-- The collector loop of `detectDivergence` over the values it reads from `errc`. -/
def collect (handleConflictingHeaders : LightBlock → Nat → Except DetectorError Unit) :
    List ErrcValue → Collected → Except DetectorError Collected
  | [], acc => .ok acc
  | .nil :: errc, acc => collect handleConflictingHeaders errc { acc with headerMatched := true }
  | .conflictingHeaders block i :: errc, acc =>
    match handleConflictingHeaders block i with
    | .error err => .error err
    | .ok () => collect handleConflictingHeaders errc { acc with witnessesToRemove := acc.witnessesToRemove ++ [i] }
  | .badWitness _ i :: errc, acc =>
    collect handleConflictingHeaders errc { acc with witnessesToRemove := acc.witnessesToRemove ++ [i] }
  | .error err :: errc, acc =>
    if err = .canceled ∨ err = .deadlineExceeded then .error (.provider err)
    else collect handleConflictingHeaders errc acc

/-- One step of `removeWitnesses`: the last witness takes the place of the one removed. -/
def removeWitnessAt {W : Type} (witnesses : List W) (i : Nat) : List W :=
  match witnesses.getLast? with
  | some last => (witnesses.set i last).dropLast
  | none => witnesses

/-- `removeWitnesses`, by index from the largest. -/
def removeWitnesses {W : Type} (witnesses : List W) (indexes : List Nat) : Except DetectorError (List W) :=
  if witnesses.length ≤ indexes.length then .error .noWitnesses
  else .ok (indexes.mergeSort.reverse.foldl removeWitnessAt witnesses)

/-- `detectDivergence`, when `errc` delivers the values `errc` in this order: the witnesses kept and the
    result. -/
def detectDivergence (primaryTrace : List LightBlock) (witnesses : List Witness)
    (handleConflictingHeaders : LightBlock → Nat → Except DetectorError Unit) (errc : List ErrcValue) :
    List Witness × Except DetectorError Unit :=
  if primaryTrace.length < 2 then (witnesses, .error .nilOrSingleTrace)
  else if witnesses.length = 0 then (witnesses, .error .noWitnesses)
  else
    match collect handleConflictingHeaders (errc.take witnesses.length) ⟨false, []⟩ with
    | .error err => (witnesses, .error err)
    | .ok acc =>
      match removeWitnesses witnesses acc.witnessesToRemove with
      | .error err => (witnesses, .error err)
      | .ok kept => (kept, if acc.headerMatched then .ok () else .error .failedHeaderCrossReferencing)

/-- What the witnesses' goroutines send on `errc`, witness by witness. -/
def sends (h : LightBlock) (witnesses : List Witness) : List (List ErrcValue) :=
  witnesses.mapIdx fun i witness => compareNewHeaderWithWitness h witness i

/-- A run of `detectDivergence` on `primaryTrace` ends with `result`: the goroutines' values reach `errc` in
    the order of some schedule, and the collector reads `len(witnesses)` of them. -/
def Run (primaryTrace : List LightBlock) (witnesses : List Witness)
    (handleConflictingHeaders : LightBlock → Nat → Except DetectorError Unit) (result : Except DetectorError Unit) :
    Prop :=
  ∃ h sched, primaryTrace.getLast? = some h ∧
    witnesses.length ≤ (Channel.deliver sched (sends h witnesses)).length ∧
    (detectDivergence primaryTrace witnesses handleConflictingHeaders (Channel.deliver sched (sends h witnesses))).2 =
      result

/-- The witness answered `lightBlock` to a call for `height`, or to a call for its latest block with
    `lightBlock` at `height`. -/
def Answered (witness : Witness) (height : Int64) (lightBlock : LightBlock) : Prop :=
  ∃ n, witness n height = .ok lightBlock ∨ (witness n 0 = .ok lightBlock ∧ lightBlock.height = height)

/-! ### What one goroutine sends -/

section Goroutine

variable {h lightBlock : LightBlock} {witness : Witness} {i : Nat}

theorem compareHashes_of_ne (hh : lightBlock.hash ≠ h.hash) :
    compareHashes h lightBlock i = [.conflictingHeaders lightBlock i, .nil] := by
  simp [compareHashes, Ne.symm hh]

/-- A block `getTargetBlockOrLatest` returns as at the target height is one the witness answered for it. -/
theorem getTargetBlockOrLatest_true {call n : Nat} {height : Int64}
    (hg : getTargetBlockOrLatest witness call height = (n, .ok (true, lightBlock))) :
    Answered witness height lightBlock := by
  unfold getTargetBlockOrLatest at hg
  split at hg
  · cases hg
  rename_i latest hlatest
  split_ifs at hg with heq hgt
  · -- the latest block is at the target height
    cases hg
    exact ⟨call, .inr ⟨hlatest, heq⟩⟩
  · -- the witness is ahead and is asked for the target height
    split at hg
    · cases hg
    · rename_i target htarget
      cases hg
      exact ⟨call + 1, .inl htarget⟩
  · -- the witness is behind: not at the target height
    cases hg

/-- A goroutine sends one value other than `nil`, or ends with the comparison of a block the witness
    answered for the height. -/
theorem compareNewHeaderWithWitness_cases (h : LightBlock) (witness : Witness) (i : Nat) :
    (∃ v, v ≠ .nil ∧ compareNewHeaderWithWitness h witness i = [v]) ∨
      ∃ lightBlock, Answered witness h.height lightBlock ∧
        compareNewHeaderWithWitness h witness i = compareHashes h lightBlock i := by
  unfold compareNewHeaderWithWitness
  split
  · rename_i lightBlock hw
    exact .inr ⟨lightBlock, ⟨0, .inl hw⟩, rfl⟩
  · exact .inl ⟨_, by simp, rfl⟩
  · exact .inl ⟨_, by simp, rfl⟩
  · exact .inl ⟨_, by simp, rfl⟩
  · exact .inl ⟨_, by simp, rfl⟩
  · -- the witness is behind: first `getTargetBlockOrLatest`
    split
    · exact .inl ⟨_, by simp, rfl⟩
    · rename_i lightBlock hg
      exact .inr ⟨lightBlock, getTargetBlockOrLatest_true hg, rfl⟩
    split_ifs
    · -- then again, after the wait
      split
      · split_ifs
        · exact .inl ⟨_, by simp, rfl⟩
        · exact .inl ⟨_, by simp, rfl⟩
      · rename_i lightBlock hg
        exact .inr ⟨lightBlock, getTargetBlockOrLatest_true hg, rfl⟩
      · split_ifs
        · exact .inl ⟨_, by simp, rfl⟩
        · exact .inl ⟨_, by simp, rfl⟩
    · exact .inl ⟨_, by simp, rfl⟩
  · exact .inl ⟨_, by simp, rfl⟩

end Goroutine

/-! ### The collector -/

section Collector

variable {handleConflictingHeaders : LightBlock → Nat → Except DetectorError Unit}

/-- The collector ends with a match only after reading a `nil`. -/
theorem collect_headerMatched {errc : List ErrcValue} {acc acc' : Collected}
    (hc : collect handleConflictingHeaders errc acc = .ok acc') (hm : acc'.headerMatched = true) :
    acc.headerMatched = true ∨ .nil ∈ errc := by
  induction errc generalizing acc with
  | nil =>
    cases hc
    exact .inl hm
  | cons v errc ih =>
    cases v with
    | nil => exact .inr List.mem_cons_self
    | conflictingHeaders block j =>
      simp only [collect] at hc
      split at hc
      · cases hc
      · rcases ih hc with h | h
        · exact .inl h
        · exact .inr (List.mem_cons_of_mem _ h)
    | badWitness reason j =>
      rcases ih hc with h | h
      · exact .inl h
      · exact .inr (List.mem_cons_of_mem _ h)
    | error err =>
      simp only [collect] at hc
      split_ifs at hc
      rcases ih hc with h | h
      · exact .inl h
      · exact .inr (List.mem_cons_of_mem _ h)

/-- When every examination of a conflicting block reports an attack, a collector that ends without error
    read no conflicting block. -/
theorem collect_not_conflicting (hattack : ∀ block j, ∃ err, handleConflictingHeaders block j = .error err)
    {errc : List ErrcValue} {acc acc' : Collected} (hc : collect handleConflictingHeaders errc acc = .ok acc')
    (block : LightBlock) (j : Nat) : .conflictingHeaders block j ∉ errc := by
  induction errc generalizing acc with
  | nil => exact List.not_mem_nil
  | cons v errc ih =>
    intro hmem
    cases v with
    | nil => exact ih hc (List.mem_of_ne_of_mem (by simp) hmem)
    | conflictingHeaders block' j' =>
      obtain ⟨err, herr⟩ := hattack block' j'
      simp only [collect, herr] at hc
      cases hc
    | badWitness reason j' => exact ih hc (List.mem_of_ne_of_mem (by simp) hmem)
    | error err =>
      simp only [collect] at hc
      split_ifs at hc
      exact ih hc (List.mem_of_ne_of_mem (by simp) hmem)

theorem detectDivergence_eq_ok {primaryTrace : List LightBlock} {witnesses : List Witness}
    {errc : List ErrcValue} (h : (detectDivergence primaryTrace witnesses handleConflictingHeaders errc).2 = .ok ()) :
    ∃ acc, collect handleConflictingHeaders (errc.take witnesses.length) ⟨false, []⟩ = .ok acc ∧
      acc.headerMatched = true := by
  unfold detectDivergence at h
  split_ifs at h
  split at h
  · cases h
  rename_i acc hacc
  split at h
  · cases h
  · split_ifs at h with hm
    exact ⟨acc, hacc, hm⟩

end Collector

/-! ### Runs -/

section Runs

variable {primaryTrace : List LightBlock} {witnesses : List Witness}
  {handleConflictingHeaders : LightBlock → Nat → Except DetectorError Unit}

theorem mem_sends {h : LightBlock} {l : List ErrcValue} (hl : l ∈ sends h witnesses) :
    ∃ j, ∃ hj : j < witnesses.length, compareNewHeaderWithWitness h witnesses[j] j = l := by
  obtain ⟨j, hj, hl⟩ := List.mem_mapIdx.mp hl
  exact ⟨j, hj, hl⟩

/-- What the detector does guarantee: when it trusts the header, some witness answered a block for its
    height, whatever that block's hash. -/
theorem detectDivergence_ok_answered (hrun : Run primaryTrace witnesses handleConflictingHeaders (.ok ())) :
    ∃ h, primaryTrace.getLast? = some h ∧
      ∃ j, ∃ hj : j < witnesses.length, ∃ lightBlock, Answered witnesses[j] h.height lightBlock := by
  obtain ⟨h, sched, hlast, -, hres⟩ := hrun
  obtain ⟨acc, hacc, hm⟩ := detectDivergence_eq_ok hres
  -- a `nil` was read, and some goroutine sent it
  have hnil := (collect_headerMatched hacc hm).resolve_left (by simp)
  obtain ⟨l, hl, hnil⟩ := Channel.mem_deliver (List.mem_of_mem_take hnil)
  obtain ⟨j, hj, rfl⟩ := mem_sends hl
  refine ⟨h, hlast, j, hj, ?_⟩
  rcases compareNewHeaderWithWitness_cases h witnesses[j] j with ⟨v, hv, hone⟩ | ⟨lightBlock, hA, -⟩
  · rw [hone, List.mem_singleton] at hnil
    exact absurd hnil.symm hv
  · exact ⟨lightBlock, hA⟩

/-- One witness that answers the header itself: the detector trusts the header. -/
theorem detectDivergence_ok_answered_agreeing :
    let h : LightBlock := ⟨2, 20, [1]⟩
    let witnesses : List Witness := [fun _ _ => .ok h]
    Run [⟨1, 10, [0]⟩, h] witnesses (fun _ _ => .ok ()) (.ok ()) ∧
      ∃ h', [⟨1, 10, [0]⟩, h].getLast? = some h' ∧
        ∃ j, ∃ hj : j < witnesses.length, ∃ lightBlock, Answered witnesses[j] h'.height lightBlock := by
  intro h witnesses
  have hrun : Run [⟨1, 10, [0]⟩, h] witnesses (fun _ _ => .ok ()) (.ok ()) := ⟨h, [0], rfl, by decide, rfl⟩
  exact ⟨hrun, detectDivergence_ok_answered hrun⟩

/-- When every conflicting block is reported as an attack, a trusted header was confirmed: some witness
    answered, for its height, a block with its hash. The `nil` a conflicting witness sends comes after its
    conflict, which the collector would have read first. -/
theorem detectDivergence_ok_of_attack (hattack : ∀ block j, ∃ err, handleConflictingHeaders block j = .error err)
    (hrun : Run primaryTrace witnesses handleConflictingHeaders (.ok ())) :
    ∃ h, primaryTrace.getLast? = some h ∧ ∃ j, ∃ hj : j < witnesses.length, ∃ lightBlock,
      Answered witnesses[j] h.height lightBlock ∧ lightBlock.hash = h.hash := by
  obtain ⟨h, sched, hlast, -, hres⟩ := hrun
  obtain ⟨acc, hacc, hm⟩ := detectDivergence_eq_ok hres
  set D := Channel.deliver sched (sends h witnesses)
  have hnil := (collect_headerMatched hacc hm).resolve_left (by simp)
  -- the values read before the `nil`
  obtain ⟨s, t, hst⟩ := List.append_of_mem hnil
  have hD : D = s ++ .nil :: (t ++ D.drop witnesses.length) := by
    conv_lhs => rw [← List.take_append_drop witnesses.length D, hst]
    simp
  obtain ⟨l, hl, pre, suf, hpre_eq, hpre⟩ := Channel.deliver_eq_append_cons hD
  obtain ⟨j, hj, hjl⟩ := mem_sends hl
  refine ⟨h, hlast, j, hj, ?_⟩
  rcases compareNewHeaderWithWitness_cases h witnesses[j] j with ⟨v, hv, hone⟩ | ⟨lightBlock, hA, hcmp⟩
  · -- one value other than `nil` cannot hold the `nil`
    rw [← hjl, hone] at hpre_eq
    cases pre with
    | nil => exact absurd (List.cons.inj hpre_eq).1 hv
    | cons x pre => simp at hpre_eq
  · refine ⟨lightBlock, hA, ?_⟩
    by_contra hne
    rw [← hjl, hcmp, compareHashes_of_ne hne] at hpre_eq
    -- the conflict before the `nil` was read
    cases pre with
    | nil => simp at hpre_eq
    | cons x pre =>
      obtain ⟨rfl, -⟩ := List.cons.inj hpre_eq
      have hread : ErrcValue.conflictingHeaders lightBlock j ∈ D.take witnesses.length := by
        rw [hst]
        exact List.mem_append_left _ (hpre _ List.mem_cons_self)
      exact collect_not_conflicting hattack hacc lightBlock j hread

/-- One witness that answers the header itself, and every conflict reported as an attack: the detector trusts
    the header, which the witness confirmed. -/
theorem detectDivergence_ok_of_attack_agreeing :
    let h : LightBlock := ⟨2, 20, [1]⟩
    let witnesses : List Witness := [fun _ _ => .ok h]
    Run [⟨1, 10, [0]⟩, h] witnesses (fun _ _ => .error .lightClientAttack) (.ok ()) ∧
      ∃ h', [⟨1, 10, [0]⟩, h].getLast? = some h' ∧ ∃ j, ∃ hj : j < witnesses.length, ∃ lightBlock,
        Answered witnesses[j] h'.height lightBlock ∧ lightBlock.hash = h'.hash := by
  intro h witnesses
  have hrun : Run [⟨1, 10, [0]⟩, h] witnesses (fun _ _ => .error .lightClientAttack) (.ok ()) :=
    ⟨h, [0], rfl, by decide, rfl⟩
  exact ⟨hrun, detectDivergence_ok_of_attack (fun _ _ => ⟨_, rfl⟩) hrun⟩

end Runs

/-- Two witnesses: the first answers a block at the header's height with another hash, the second does not
    respond. The first goroutine sends the conflict and then `nil`; when both reach `errc` first and the
    witness's trace cannot be verified, the detector trusts the header, though no witness answered a block
    with its hash. -/
theorem detectDivergence_stray_nil :
    let h : LightBlock := ⟨2, 20, [1]⟩
    let conflicting : LightBlock := ⟨2, 20, [2]⟩
    let witnesses : List Witness := [fun _ _ => .ok conflicting, fun _ _ => .error .noResponse]
    compareNewHeaderWithWitness h witnesses[0] 0 = [.conflictingHeaders conflicting 0, .nil] ∧
      Run [⟨1, 10, [0]⟩, h] witnesses (fun _ _ => .ok ()) (.ok ()) ∧
      ∀ j, ∀ hj : j < witnesses.length, ∀ lightBlock, Answered witnesses[j] h.height lightBlock →
        lightBlock.hash ≠ h.hash := by
  intro h conflicting witnesses
  refine ⟨rfl, ⟨h, [0, 0, 1], rfl, by decide, rfl⟩, fun j hj lightBlock hA => ?_⟩
  obtain ⟨n, hA⟩ := hA
  match j, hj with
  | 0, _ =>
    -- the first witness only ever answers the conflicting block
    have : lightBlock = conflicting := by
      rcases hA with hA | ⟨hA, -⟩ <;> exact (Except.ok.inj hA).symm
    subst this
    decide
  | 1, _ => rcases hA with hA | ⟨hA, -⟩ <;> cases hA

end Light

end CometBFT
