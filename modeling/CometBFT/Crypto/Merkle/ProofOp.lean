import CometBFT.Crypto.Merkle.Proof
import CometBFT.Crypto.Merkle.KeyPath

/-! Chained proofs (`crypto/merkle/proof_op.go`, `crypto/merkle/proof_value.go`).

    `ProofOperators.Verify` decodes the key path, then runs the operators in order: an operator with a
    key takes the last key left, and each one's output is the next one's input. It then compares
    `args[0]` with the root and asks that no key is left. The operators are an interface; here they are
    any type `Op` with its `GetKey` and `Run`, and `DefaultProofRuntime` decodes only `ValueOp`s.

    The loop succeeds exactly when the keys of the operators, in order, are the keys left read from the
    end, and every run succeeds (`verifyLoop_eq_ok`), so `Verify` accepts exactly what it should. But
    `args[0]` is read whatever the loop did: with no operators and the nil arguments of
    `VerifyAbsence` it is out of range and `Verify` panics. A `ValueOp` returns one hash, so with
    `ValueOp`s this is the only panic. -/

namespace CometBFT

namespace Merkle

/-- The errors of `ProofOperators.Verify`, over the errors `ε` of its operators, with the values their
    messages print. `indexOutOfRange` is the runtime panic of reading `args[0]` from an empty list. -/
inductive VerifyError (ε : Type)
  | keyPath (e : KeyError)
  | insufficientKeys (key : List UInt8)
  | keyMismatch (i : Nat) (lastKey key : List UInt8)
  | run (e : ε)
  | rootMismatch (got root : List UInt8)
  | keyPathNotConsumed
  | indexOutOfRange
  deriving Repr, DecidableEq

section
variable {Op ε : Type} (getKey : Op → List UInt8) (run : Op → List (List UInt8) → Except ε (List (List UInt8)))

/-- The key check of the loop of `ProofOperators.Verify` at operator `i`: a non-empty key must be the
    last of the keys left, and is taken off them. -/
def consumeKey (i : Nat) (key : List UInt8) (keys : List (List UInt8)) : Except (VerifyError ε) (List (List UInt8)) :=
  if key.length ≠ 0 then
    match keys.getLast? with
    | none => .error (.insufficientKeys key)
    | some lastKey => if lastKey ≠ key then .error (.keyMismatch i lastKey key) else .ok keys.dropLast
  else .ok keys

/-- The loop of `ProofOperators.Verify` from operator `i`: the keys left and the arguments after it. -/
def verifyLoop : List Op → Nat → List (List UInt8) → List (List UInt8) →
    Except (VerifyError ε) (List (List UInt8) × List (List UInt8))
  | [], _, keys, args => .ok (keys, args)
  | op :: poz, i, keys, args => do
    let keys ← consumeKey i (getKey op) keys
    let args ← (run op args).mapError .run
    verifyLoop poz (i + 1) keys args

/-- `ProofOperators.Verify`. -/
def ProofOperators.verify (poz : List Op) (root keypath : List UInt8) (args : List (List UInt8)) :
    Except (VerifyError ε) Unit := do
  let keys ← (keyPathToKeys keypath).mapError .keyPath
  let (keys, args) ← verifyLoop getKey run poz 0 keys args
  match args with
  | [] => .error .indexOutOfRange
  | arg :: _ =>
    if root ≠ arg then .error (.rootMismatch arg root)
    else if keys.length ≠ 0 then .error .keyPathNotConsumed
    else .ok ()

/-- `ProofOperators.VerifyValue`. -/
def ProofOperators.verifyValue (poz : List Op) (root keypath value : List UInt8) : Except (VerifyError ε) Unit :=
  ProofOperators.verify getKey run poz root keypath [value]

/-- `ProofRuntime.VerifyAbsence` on the decoded operators: `Verify` with nil arguments. -/
def verifyAbsence (poz : List Op) (root keypath : List UInt8) : Except (VerifyError ε) Unit :=
  ProofOperators.verify getKey run poz root keypath []

/-- What the operators compute when each runs on the output of the one before. -/
def runOps : List Op → List (List UInt8) → Except ε (List (List UInt8))
  | [], args => .ok args
  | op :: poz, args => run op args >>= runOps poz

end

/-! ### What `Verify` accepts -/

theorem except_bind_eq_error {ε α β : Type} {x : Except ε α} {f : α → Except ε β} {e : ε} :
    x >>= f = .error e ↔ x = .error e ∨ ∃ a, x = .ok a ∧ f a = .error e := by
  cases x <;> simp [bind, Except.bind]

section
variable {Op ε : Type} {getKey : Op → List UInt8} {run : Op → List (List UInt8) → Except ε (List (List UInt8))}

/-- An empty key takes nothing; another key must be the last one left, and is taken. -/
theorem consumeKey_eq_ok {i : Nat} {key : List UInt8} {keys keys' : List (List UInt8)} :
    (consumeKey i key keys : Except (VerifyError ε) _) = .ok keys' ↔
      (key = [] ∧ keys' = keys) ∨ (key ≠ [] ∧ keys = keys' ++ [key]) := by
  by_cases hkey : key = []
  · subst hkey
    simp [consumeKey, eq_comm]
  · rw [consumeKey, if_pos (by simpa using hkey)]
    rcases List.eq_nil_or_concat' keys with rfl | ⟨L, b, rfl⟩
    · simp [hkey]
    · rw [List.getLast?_concat]
      by_cases hb : b = key
      · subst hb
        simp [hkey, eq_comm]
      · simp [hb, hkey]

/-- The loop succeeds exactly when the operators' keys, in order, are the keys left read from the end, and
    every operator runs: what is left is the keys before them, and the arguments are the last output. -/
theorem verifyLoop_eq_ok {poz : List Op} {i : Nat} {keys args keys' out : List (List UInt8)} :
    verifyLoop getKey run poz i keys args = .ok (keys', out) ↔
      keys = keys' ++ ((poz.map getKey).filter (· ≠ [])).reverse ∧ runOps run poz args = .ok out := by
  induction poz generalizing i keys args with
  | nil => simp [verifyLoop, runOps, eq_comm]
  | cons op poz ih =>
    simp only [verifyLoop, runOps, except_bind_eq_ok, mapError_eq_ok, ih, consumeKey_eq_ok]
    rw [List.map_cons, List.filter_cons]
    by_cases hk : getKey op = []
    · -- an operator without a key takes none
      simp [hk, eq_comm]
    · -- its key is the last one left
      simp [hk]

/-- The loop stops only on a key or an operator: it never reads `args[0]`. -/
theorem verifyLoop_ne_indexOutOfRange (poz : List Op) (i : Nat) (keys args : List (List UInt8)) :
    verifyLoop getKey run poz i keys args ≠ .error .indexOutOfRange := by
  induction poz generalizing i keys args with
  | nil => simp [verifyLoop]
  | cons op poz ih =>
    rw [verifyLoop, Ne, except_bind_eq_error, not_or]
    refine ⟨?_, ?_⟩
    · -- `consumeKey` fails only on a key
      unfold consumeKey
      split_ifs <;> (try split) <;> (try split_ifs) <;> simp
    · rintro ⟨keys', -, h⟩
      rw [except_bind_eq_error] at h
      rcases h with h | ⟨args', -, h⟩
      · cases hrun : run op args <;> simp [hrun, Except.mapError] at h
      · exact ih _ _ _ h

/-- `Verify` accepts exactly when the key path decodes, the keys of the operators that have one are its
    keys from the last to the first, and the last output starts with the root. -/
theorem ProofOperators.verify_eq_ok {poz : List Op} {root keypath : List UInt8} {args : List (List UInt8)} :
    ProofOperators.verify getKey run poz root keypath args = .ok () ↔
      ∃ keys out, keyPathToKeys keypath = .ok keys ∧ (poz.map getKey).filter (· ≠ []) = keys.reverse ∧
        runOps run poz args = .ok (root :: out) := by
  simp only [ProofOperators.verify, except_bind_eq_ok, mapError_eq_ok]
  constructor
  · rintro ⟨keys, hkeys, ⟨keys', out⟩, hloop, hend⟩
    obtain ⟨hk, hrun⟩ := verifyLoop_eq_ok.mp hloop
    dsimp only at hend
    rcases out with _ | ⟨arg, out⟩
    · cases hend
    -- the root is the first output, and no key is left
    have hroot : root = arg := by
      by_contra h
      simp [h] at hend
    have hleft : keys' = [] := by
      by_contra h
      simp [hroot, h] at hend
    subst hroot hleft
    exact ⟨keys, out, hkeys, by rw [hk, List.nil_append, List.reverse_reverse], hrun⟩
  · rintro ⟨keys, out, hkeys, hfilter, hrun⟩
    refine ⟨keys, hkeys, ([], root :: out), ?_, by simp⟩
    exact verifyLoop_eq_ok.mpr ⟨by rw [List.nil_append, hfilter, List.reverse_reverse], hrun⟩

/-- `Verify` panics exactly when the key path decodes and the loop ends with no arguments. -/
theorem ProofOperators.verify_eq_indexOutOfRange {poz : List Op} {root keypath : List UInt8}
    {args : List (List UInt8)} :
    ProofOperators.verify getKey run poz root keypath args = .error .indexOutOfRange ↔
      ∃ keys keys', keyPathToKeys keypath = .ok keys ∧ verifyLoop getKey run poz 0 keys args = .ok (keys', []) := by
  simp only [ProofOperators.verify, except_bind_eq_error]
  rcases hkp : keyPathToKeys keypath with e | keys
  · simp [Except.mapError]
  · simp only [Except.mapError, reduceCtorEq, false_or, Except.ok.injEq, exists_eq_left',
      verifyLoop_ne_indexOutOfRange]
    constructor
    · rintro ⟨⟨keys', out⟩, hloop, hend⟩
      rcases out with _ | ⟨arg, out⟩
      · exact ⟨keys, keys', rfl, hloop⟩
      · -- a non-empty output ends in a comparison
        dsimp only at hend
        split_ifs at hend <;> cases hend
    · rintro ⟨_, keys', rfl, hloop⟩
      exact ⟨(keys', []), hloop, rfl⟩

end

/-! ### `ValueOp` -/

/-- `ValueOp`, as `ValueOpDecoder` returns it: its key and a proof. -/
structure ValueOp where
  key : List UInt8
  proof : Proof
  deriving Repr, DecidableEq

/-- The errors of `ValueOp.Run`; an error of `computeRootHash` is returned as it is. -/
inductive ValueOpError
  | tooManyArgs
  | leafMismatch (kvhash want : List UInt8)
  | computeRootHash (e : AuntsError)
  deriving Repr, DecidableEq

/-- `encodeByteSlice`: the length as a uvarint, then the bytes. -/
def encodeByteSlice (bz : List UInt8) : List UInt8 := encodeVarint 10 bz.length ++ bz

section
variable (sha : List UInt8 → List UInt8)

/-- `ValueOp.Run`: the leaf of the key and the value's hash must be the proof's leaf, and the output is
    the root the proof computes (`computeRootHash`). -/
def ValueOp.run (op : ValueOp) (args : List (List UInt8)) : Except ValueOpError (List (List UInt8)) :=
  match args with
  | [value] =>
    let vhash := sha value
    let kvhash := leafHash sha (encodeByteSlice op.key ++ encodeByteSlice vhash)
    if kvhash ≠ op.proof.leafHash then .error (.leafMismatch kvhash op.proof.leafHash)
    else
      match computeHashFromAunts sha op.proof.index op.proof.total op.proof.leafHash op.proof.aunts with
      | .error e => .error (.computeRootHash e)
      | .ok rootHash => .ok [rootHash]
  | _ => .error .tooManyArgs

/-- A `ValueOp` that runs returns one hash. -/
theorem ValueOp.run_eq_ok {op : ValueOp} {args out : List (List UInt8)} (h : ValueOp.run sha op args = .ok out) :
    ∃ rootHash, out = [rootHash] := by
  unfold ValueOp.run at h
  split at h
  · dsimp only at h
    split_ifs at h
    split at h
    · cases h
    · cases h
      exact ⟨_, rfl⟩
  · cases h

/-- A chain of at least one `ValueOp` outputs one hash. -/
theorem runOps_valueOp_cons {op : ValueOp} {poz : List ValueOp} {args out : List (List UInt8)}
    (h : runOps (ValueOp.run sha) (op :: poz) args = .ok out) : ∃ rootHash, out = [rootHash] := by
  induction poz generalizing op args with
  | nil =>
    rw [runOps, except_bind_eq_ok] at h
    obtain ⟨out', hrun, hrest⟩ := h
    cases hrest
    exact ValueOp.run_eq_ok sha hrun
  | cons op' poz ih =>
    rw [runOps, except_bind_eq_ok] at h
    obtain ⟨out', -, hrest⟩ := h
    exact ih hrest

/-- With `ValueOp`s, `Verify` panics exactly when there is no operator and no argument, and the key path
    decodes. -/
theorem ValueOp.verify_eq_indexOutOfRange {poz : List ValueOp} {root keypath : List UInt8}
    {args : List (List UInt8)} :
    ProofOperators.verify ValueOp.key (ValueOp.run sha) poz root keypath args = .error .indexOutOfRange ↔
      poz = [] ∧ args = [] ∧ ∃ keys, keyPathToKeys keypath = .ok keys := by
  rw [ProofOperators.verify_eq_indexOutOfRange]
  constructor
  · rintro ⟨keys, keys', hkeys, hloop⟩
    obtain ⟨-, hrun⟩ := verifyLoop_eq_ok.mp hloop
    cases poz with
    | nil =>
      cases hrun
      exact ⟨rfl, rfl, keys, hkeys⟩
    | cons op poz =>
      obtain ⟨_, hout⟩ := runOps_valueOp_cons sha hrun
      cases hout
  · rintro ⟨rfl, rfl, keys, hkeys⟩
    exact ⟨keys, keys, hkeys, rfl⟩

/-- `VerifyAbsence` of the empty proof at the key path `/`, which decodes to one empty key, panics
    whatever the root. -/
theorem verifyAbsence_empty_proof_panics (root : List UInt8) :
    verifyAbsence ValueOp.key (ValueOp.run sha) [] root [byte '/'] = .error .indexOutOfRange :=
  (ValueOp.verify_eq_indexOutOfRange sha).mpr ⟨rfl, rfl, [[]], by decide⟩

end

end Merkle

end CometBFT
