import CometBFT.Types.Canonical
import CometBFT.Protoio.Delimited

/-! The file signer's double-sign protection (`privval/file.go`).

    `FilePVLastSignState` holds the height, round and step of the last signature with its sign bytes.
    `signVote` refuses a height, round and step below them; at the same ones it answers with the stored
    signature, when the sign bytes are the same or differ only in their time, and otherwise it signs
    and stores. The key's `Sign` is the parameter `sign`. The extension of a non-nil precommit is signed
    on every request that passes the height check, whatever the request does next. A run collects the
    messages it hands to `Sign`: with an unforgeable signature scheme, they are the only ones whose
    signatures verify.

    `checkVotesOnlyDifferByTimestamp` decodes two sign bytes with `UnmarshalDelimited` and compares the
    votes once both carry the same time. The generated `CanonicalVote.Unmarshal` is the parameter
    `unmarshal`. -/

namespace CometBFT

namespace Privval

open PrefixCode Protoio

def stepPrevote : Int := 2

def stepPrecommit : Int := 3

/-- `voteToStep`; `none` is the panic on another type. -/
def voteToStep : SignedMsgType → Option Int
  | .prevote => some stepPrevote
  | .precommit => some stepPrecommit
  | _ => none

/-- A height, round and step, ordered lexicographically. -/
def toHRS (height round step : Int) : Int ×ₗ Int ×ₗ Int := toLex (height, toLex (round, step))

/-- `FilePVLastSignState`. A nil byte slice is empty. -/
structure FilePVLastSignState where
  height : Int
  round : Int
  step : Int
  signature : List UInt8
  signBytes : List UInt8
  deriving Repr, DecidableEq

/-- The errors of `signVote`, with the values their messages print; `panic` is a panic. -/
inductive SignError
  | heightRegression (height last : Int)
  | roundRegression (height round last : Int)
  | stepRegression (height round step last : Int)
  | noSignBytes
  | unexpectedVoteExtension
  | conflictingData
  | panic
  deriving Repr, DecidableEq

namespace FilePVLastSignState

def hrs (lss : FilePVLastSignState) : Int ×ₗ Int ×ₗ Int := toHRS lss.height lss.round lss.step

/-- `CheckHRS`: whether the stored signature is for this height, round and step. -/
def checkHRS (lss : FilePVLastSignState) (height round step : Int) : Except SignError Bool :=
  if lss.height > height then .error (.heightRegression height lss.height)
  else if lss.height ≠ height then .ok false
  else if lss.round > round then .error (.roundRegression height round lss.round)
  else if lss.round ≠ round then .ok false
  else if lss.step > step then .error (.stepRegression height round step lss.step)
  else if lss.step < step then .ok false
  else if lss.signBytes = [] then .error .noSignBytes
  else if lss.signature = [] then .error .panic
  else .ok true

/-- A new signature is only made above the last height, round and step. -/
theorem checkHRS_eq_ok_false {lss : FilePVLastSignState} {height round step : Int}
    (h : lss.checkHRS height round step = .ok false) : lss.hrs < toHRS height round step := by
  unfold checkHRS at h
  simp only [hrs, toHRS, Prod.Lex.toLex_lt_toLex]
  split_ifs at h <;> first | omega | cases h

end FilePVLastSignState

/-- What a request hands to `Sign`, in order, and its answer: the signed vote and the new last sign
    state. -/
structure SignOutcome where
  signed : List (List UInt8)
  result : Except SignError (Vote × FilePVLastSignState)

/-- The last sign state after a request: the one it answers with, or the one before when it fails. -/
def SignOutcome.lastSignState (out : SignOutcome) (lss : FilePVLastSignState) : FilePVLastSignState :=
  match out.result with
  | .ok (_, lss') => lss'
  | .error _ => lss

section

variable (sign : List UInt8 → List UInt8) {ε : Type} (unmarshal : List UInt8 → Except ε CanonicalVote)

/-- `checkVotesOnlyDifferByTimestamp`: the time of the last vote, and whether the two votes are equal once both
    carry the same time; `none` is its panic on sign bytes that do not decode. -/
def checkVotesOnlyDifferByTimestamp (lastSignBytes newSignBytes : List UInt8) : Option (Int × Bool) :=
  match unmarshalDelimited unmarshal lastSignBytes with
  | .error _ => none
  | .ok lastVote =>
    match unmarshalDelimited unmarshal newSignBytes with
    | .error _ => none
    | .ok newVote =>
      -- both times are set to `cmttime.Now()`; the answer is the same for every time
      let now : Int := 0
      some (lastVote.timestamp, { newVote with timestamp := now } == { lastVote with timestamp := now })

/-- `UnmarshalDelimited` gives back the canonical vote of a vote's sign bytes, when `proto.Unmarshal` decodes
    each canonical vote's encoding back. -/
theorem unmarshalDelimited_voteSignBytes
    (hdec : ∀ (cv : CanonicalVote) msg, cv.marshal = some msg → unmarshal msg = .ok cv) {c : List UInt8} {v : Vote}
    {m : List UInt8} (h : voteSignBytes c v = some m) (hfit : m.length + 2 * maxVarintLen64 ≤ maxInt) :
    ∃ cv, canonicalizeVote c v = some cv ∧ unmarshalDelimited unmarshal m = .ok cv := by
  simp only [voteSignBytes, Option.bind_eq_bind, Option.bind_eq_some_iff, Option.pure_def,
    Option.some.injEq] at h
  obtain ⟨cv, hcv, msg, hmsg, rfl⟩ := h
  -- the sign bytes are the encoding behind its length, as `WriteMsg` writes it
  have hw : marshalDelimited msg = writeMsg id msg := rfl
  rw [hw] at hfit ⊢
  have hlen : (id msg).length + 2 * maxVarintLen64 ≤ maxInt := by
    simp only [writeMsg, List.length_append, id] at hfit ⊢
    omega
  refine ⟨cv, hcv, ?_⟩
  rw [unmarshalDelimited_writeMsg hlen, id, hdec cv msg hmsg]
  rfl

/-- On the sign bytes of two votes, the check answers with the time of the last vote and whether the two
    canonical votes agree in all but their time. -/
theorem checkVotesOnlyDifferByTimestamp_voteSignBytes
    (hdec : ∀ (cv : CanonicalVote) msg, cv.marshal = some msg → unmarshal msg = .ok cv)
    {c₁ c₂ : List UInt8} {v₁ v₂ : Vote} {m₁ m₂ : List UInt8}
    (h₁ : voteSignBytes c₁ v₁ = some m₁) (h₂ : voteSignBytes c₂ v₂ = some m₂)
    (hfit₁ : m₁.length + 2 * maxVarintLen64 ≤ maxInt) (hfit₂ : m₂.length + 2 * maxVarintLen64 ≤ maxInt) :
    ∃ cv₁ cv₂, canonicalizeVote c₁ v₁ = some cv₁ ∧ canonicalizeVote c₂ v₂ = some cv₂ ∧
      checkVotesOnlyDifferByTimestamp unmarshal m₁ m₂ =
        some (v₁.timestamp, decide ({ cv₂ with timestamp := 0 } = { cv₁ with timestamp := 0 })) := by
  obtain ⟨cv₁, hcv₁, hd₁⟩ := unmarshalDelimited_voteSignBytes unmarshal hdec h₁ hfit₁
  obtain ⟨cv₂, hcv₂, hd₂⟩ := unmarshalDelimited_voteSignBytes unmarshal hdec h₂ hfit₂
  have hts : cv₁.timestamp = v₁.timestamp := by
    obtain ⟨-, -, rfl⟩ := canonicalizeVote_eq_some.mp hcv₁
    rfl
  refine ⟨cv₁, cv₂, hcv₁, hcv₂, ?_⟩
  rw [checkVotesOnlyDifferByTimestamp, hd₁, hd₂, ← hts]
  rfl

/-- The extension part of `signVote`: when extensions are signed, a non-nil precommit gets its extension
    signed and any other vote must carry none. -/
def signVoteExtension (signExtension : Bool) (chainID : List UInt8) (vote : Vote) :
    List (List UInt8) × Except SignError Vote :=
  if signExtension then
    if vote.type = .precommit ∧ ¬vote.blockID.isNil then
      let extSignBytes := voteExtensionSignBytes chainID vote
      ([extSignBytes], .ok { vote with extensionSignature := sign extSignBytes })
    else if vote.extension.length > 0 then ([], .error .unexpectedVoteExtension)
    else ([], .ok { vote with extensionSignature := [] })
  else ([], .ok vote)

/-- `signVote`. -/
def signVote (chainID : List UInt8) (vote : Vote) (signExtension : Bool) (lss : FilePVLastSignState) :
    SignOutcome :=
  match voteToStep vote.type with
  | none => ⟨[], .error .panic⟩
  | some step =>
    match lss.checkHRS vote.height vote.round step with
    | .error e => ⟨[], .error e⟩
    | .ok sameHRS =>
      match voteSignBytes chainID vote with
      | none => ⟨[], .error .panic⟩
      | some signBytes =>
        let ext := signVoteExtension sign signExtension chainID vote
        match ext.2 with
        | .error e => ⟨ext.1, .error e⟩
        | .ok vote' =>
          if sameHRS then
            -- asked again at the last height, round and step: the stored signature or nothing
            if signBytes = lss.signBytes then ⟨ext.1, .ok ({ vote' with signature := lss.signature }, lss)⟩
            else
              match checkVotesOnlyDifferByTimestamp unmarshal lss.signBytes signBytes with
              | none => ⟨ext.1, .error .panic⟩
              | some (timestamp, true) =>
                ⟨ext.1, .ok ({ vote' with timestamp, signature := lss.signature }, lss)⟩
              | some (_, false) => ⟨ext.1, .error .conflictingData⟩
          else
            let sig := sign signBytes
            let lss' : FilePVLastSignState :=
              { height := vote.height, round := vote.round, step, signature := sig, signBytes }
            ⟨ext.1 ++ [signBytes], .ok ({ vote' with signature := sig }, lss')⟩

/-- A `SignVote` request. -/
structure SignVoteRequest where
  chainID : List UInt8
  vote : Vote
  signExtension : Bool

/-- The messages a run of requests hands to `Sign`, and the last sign state after it. -/
def signVotes (lss : FilePVLastSignState) : List SignVoteRequest → List (List UInt8) × FilePVLastSignState
  | [] => ([], lss)
  | r :: rs =>
    let out := signVote sign unmarshal r.chainID r.vote r.signExtension lss
    let rest := signVotes (out.lastSignState lss) rs
    (out.signed ++ rest.1, rest.2)

theorem signVoteExtension_signed (signExtension : Bool) (chainID : List UInt8) (vote : Vote) :
    ∀ m ∈ (signVoteExtension sign signExtension chainID vote).1, m = voteExtensionSignBytes chainID vote := by
  unfold signVoteExtension
  split_ifs <;> simp

/-- What one request does to the last sign state and what it signs: either it keeps the state and signs
    extensions only, or it signs the vote's sign bytes at a height, round and step above the state's,
    and stores them. -/
theorem signVote_step (chainID : List UInt8) (vote : Vote) (signExtension : Bool) (lss : FilePVLastSignState) :
    let out := signVote sign unmarshal chainID vote signExtension lss
    (out.lastSignState lss = lss ∧ ∀ m ∈ out.signed, m = voteExtensionSignBytes chainID vote) ∨
    ∃ step signBytes, voteToStep vote.type = some step ∧ lss.hrs < toHRS vote.height vote.round step ∧
      voteSignBytes chainID vote = some signBytes ∧
      out.lastSignState lss =
        { height := vote.height, round := vote.round, step, signature := sign signBytes, signBytes } ∧
      ∀ m ∈ out.signed, m = voteExtensionSignBytes chainID vote ∨ m = signBytes := by
  intro out
  have hext := signVoteExtension_signed sign signExtension chainID vote
  unfold out signVote
  split
  · exact .inl ⟨rfl, by simp⟩
  rename_i step hstep
  split
  · exact .inl ⟨rfl, by simp⟩
  rename_i sameHRS hcheck
  split
  · exact .inl ⟨rfl, by simp⟩
  rename_i signBytes hsb
  generalize signVoteExtension sign signExtension chainID vote = ext at hext ⊢
  obtain ⟨exts, _ | vote'⟩ := ext
  · exact .inl ⟨rfl, hext⟩
  dsimp only at hext ⊢
  split
  · -- the same height, round and step: nothing new is signed but the extension
    left
    split
    · exact ⟨rfl, hext⟩
    split <;> exact ⟨rfl, hext⟩
  · -- a fresh signature
    right
    rename_i hsame
    have hlt := FilePVLastSignState.checkHRS_eq_ok_false (by simpa [hsame] using hcheck)
    refine ⟨step, signBytes, hstep, hlt, hsb, rfl, fun m hm => ?_⟩
    rcases List.mem_append.mp hm with hm | hm
    · exact .inl (hext m hm)
    · exact .inr (List.mem_singleton.mp hm)

end

/-! ### No two signatures at one height, round and type -/

/-- The vote's height and round are `int64`s, as in Go. -/
def Vote.FitsInt64 (v : Vote) : Prop :=
  minInt64 ≤ v.height ∧ v.height ≤ maxInt64 ∧ minInt64 ≤ v.round ∧ v.round ≤ maxInt64

/-- Votes of one type, and of one height and round as `uint64`s, are at one height, round and step. -/
theorem toHRS_eq_of_wire {v v' : Vote} {step step' : Int} (hv : Vote.FitsInt64 v) (hv' : Vote.FitsInt64 v')
    (hs : voteToStep v.type = some step) (hs' : voteToStep v'.type = some step') (htype : v.type = v'.type)
    (hheight : toUint64 v.height = toUint64 v'.height) (hround : toUint64 v.round = toUint64 v'.round) :
    toHRS v.height v.round step = toHRS v'.height v'.round step' := by
  obtain ⟨h₁, h₂, h₃, h₄⟩ := hv
  obtain ⟨h₁', h₂', h₃', h₄'⟩ := hv'
  rw [htype, hs'] at hs
  cases hs
  rw [toUint64_inj ⟨h₁, h₂⟩ ⟨h₁', h₂'⟩ hheight, toUint64_inj ⟨h₃, h₄⟩ ⟨h₃', h₄'⟩ hround]

/-- What a run has signed so far: sign bytes of extensions, and sign bytes of votes in the `int64` range
    at heights, rounds and steps up to the last sign state's; no two of those are of one type, height and
    round. -/
structure SignedInv (lss : FilePVLastSignState) (signed : List (List UInt8)) : Prop where
  signed_of : ∀ m ∈ signed, (∃ c v, m = voteExtensionSignBytes c v) ∨
    ∃ c v step, voteSignBytes c v = some m ∧ Vote.FitsInt64 v ∧ voteToStep v.type = some step ∧
      toHRS v.height v.round step ≤ lss.hrs
  unique : ∀ m₁ ∈ signed, ∀ m₂ ∈ signed, ∀ c₁ v₁ c₂ v₂, voteSignBytes c₁ v₁ = some m₁ →
    voteSignBytes c₂ v₂ = some m₂ → v₁.type = v₂.type → toUint64 v₁.height = toUint64 v₂.height →
    toUint64 v₁.round = toUint64 v₂.round → m₁ = m₂

theorem SignedInv.nil (lss : FilePVLastSignState) : SignedInv lss [] :=
  ⟨fun _ hm => (by cases hm), fun _ hm => (by cases hm)⟩

/-- A message signed before a fresh signature is never of its type, height and round. -/
theorem SignedInv.ne_fresh {lss : FilePVLastSignState} {signed : List (List UInt8)} (hi : SignedInv lss signed)
    {c : List UInt8} {vote : Vote} {step : Int} {m : List UInt8} (hv : Vote.FitsInt64 vote)
    (hstep : voteToStep vote.type = some step) (hlt : lss.hrs < toHRS vote.height vote.round step)
    (hm : voteSignBytes c vote = some m) {m₂ : List UInt8} (hm₂ : m₂ ∈ signed) {c₁ c₂ : List UInt8} {v₁ v₂ : Vote}
    (h₁ : voteSignBytes c₁ v₁ = some m) (h₂ : voteSignBytes c₂ v₂ = some m₂) (htype : v₁.type = v₂.type)
    (hheight : toUint64 v₁.height = toUint64 v₂.height) (hround : toUint64 v₁.round = toUint64 v₂.round) : False := by
  rcases hi.signed_of m₂ hm₂ with ⟨c', v', rfl⟩ | ⟨c', v', step', hm', hv', hstep', hle⟩
  · exact voteSignBytes_ne_voteExtensionSignBytes h₂ rfl
  · -- both messages name their votes' type, height and round: they are at one height, round and step
    obtain ⟨t₁, e₁, r₁⟩ := voteSignBytes_hrs hm h₁
    obtain ⟨t₂, e₂, r₂⟩ := voteSignBytes_hrs h₂ hm'
    have heq := toHRS_eq_of_wire hv hv' hstep hstep' (t₁.trans (htype.trans t₂)) (e₁.trans (hheight.trans e₂))
      (r₁.trans (hround.trans r₂))
    exact absurd (lt_of_lt_of_le hlt (heq ▸ hle)) (lt_irrefl _)

section

variable (sign : List UInt8 → List UInt8) {ε : Type} (unmarshal : List UInt8 → Except ε CanonicalVote)

/-- One request keeps the invariant. -/
theorem SignedInv.signVote {lss : FilePVLastSignState} {signed : List (List UInt8)} (hi : SignedInv lss signed)
    {r : SignVoteRequest} (hr : Vote.FitsInt64 r.vote) :
    let out := signVote sign unmarshal r.chainID r.vote r.signExtension lss
    SignedInv (out.lastSignState lss) (signed ++ out.signed) := by
  intro out
  rcases signVote_step sign unmarshal r.chainID r.vote r.signExtension lss with
    ⟨hlss, hext⟩ | ⟨step, m, hstep, hlt, hm, hlss, hnew⟩
  · -- only extensions are signed, and the state stays
    rw [hlss]
    refine ⟨fun x hx => ?_, fun x₁ hx₁ x₂ hx₂ c₁ v₁ c₂ v₂ h₁ h₂ ht he hr' => ?_⟩
    · rcases List.mem_append.mp hx with hx | hx
      · exact hi.signed_of x hx
      · exact .inl ⟨_, _, hext x hx⟩
    · rcases List.mem_append.mp hx₁ with hx₁ | hx₁
      · rcases List.mem_append.mp hx₂ with hx₂ | hx₂
        · exact hi.unique x₁ hx₁ x₂ hx₂ c₁ v₁ c₂ v₂ h₁ h₂ ht he hr'
        · exact absurd (hext x₂ hx₂) (voteSignBytes_ne_voteExtensionSignBytes h₂)
      · exact absurd (hext x₁ hx₁) (voteSignBytes_ne_voteExtensionSignBytes h₁)
  · -- a fresh signature above everything signed before
    rw [hlss]
    have hnew' : ∀ x ∈ out.signed, ∀ c v, voteSignBytes c v = some x → x = m := fun x hx c v hcv =>
      (hnew x hx).resolve_left fun he => voteSignBytes_ne_voteExtensionSignBytes hcv he
    refine ⟨fun x hx => ?_, fun x₁ hx₁ x₂ hx₂ c₁ v₁ c₂ v₂ h₁ h₂ ht he hr' => ?_⟩
    · rcases List.mem_append.mp hx with hx | hx
      · rcases hi.signed_of x hx with hext | ⟨c, v, s, hcv, hv, hs, hle⟩
        · exact .inl hext
        · exact .inr ⟨c, v, s, hcv, hv, hs, le_of_lt (lt_of_le_of_lt hle hlt)⟩
      · rcases hnew x hx with hx | rfl
        · exact .inl ⟨_, _, hx⟩
        · exact .inr ⟨r.chainID, r.vote, step, hm, hr, hstep, le_refl _⟩
    · rcases List.mem_append.mp hx₁ with hx₁ | hx₁ <;> rcases List.mem_append.mp hx₂ with hx₂ | hx₂
      · exact hi.unique x₁ hx₁ x₂ hx₂ c₁ v₁ c₂ v₂ h₁ h₂ ht he hr'
      · obtain rfl := hnew' x₂ hx₂ c₂ v₂ h₂
        exact (hi.ne_fresh hr hstep hlt hm hx₁ h₂ h₁ ht.symm he.symm hr'.symm).elim
      · obtain rfl := hnew' x₁ hx₁ c₁ v₁ h₁
        exact (hi.ne_fresh hr hstep hlt hm hx₂ h₁ h₂ ht he hr').elim
      · rw [hnew' x₁ hx₁ c₁ v₁ h₁, hnew' x₂ hx₂ c₂ v₂ h₂]

/-- A whole run keeps the invariant. -/
theorem SignedInv.signVotes {lss : FilePVLastSignState} {signed : List (List UInt8)} (hi : SignedInv lss signed)
    {reqs : List SignVoteRequest} (hreqs : ∀ r ∈ reqs, Vote.FitsInt64 r.vote) :
    SignedInv (signVotes sign unmarshal lss reqs).2
      (signed ++ (signVotes sign unmarshal lss reqs).1) := by
  induction reqs generalizing lss signed with
  | nil => simpa [Privval.signVotes] using hi
  | cons r rs ih =>
    have hstep := hi.signVote sign unmarshal (hreqs r List.mem_cons_self)
    have := ih hstep fun r' hr' => hreqs r' (List.mem_cons_of_mem r hr')
    simpa [Privval.signVotes, List.append_assoc] using this

end

end Privval

end CometBFT
