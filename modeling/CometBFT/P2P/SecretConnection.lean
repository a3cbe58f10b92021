import CometBFT.Types.Canonical

/-! The framing of `SecretConnection` (`p2p/conn/secret_connection.go`). `Write` cuts its data into
    chunks of at most `dataMaxSize` bytes and seals each as one frame, the chunk's length in four
    little-endian bytes, the chunk and padding, under the send nonce, which it then increments. `Read`
    hands out what is left of the last frame, or opens the next frame under the receive nonce and keeps
    what does not fit.

    The AEAD is a pair of functions, and what the theorems assume of it is stated beside them. The
    connection carries whole sealed frames: `Write` writes each sealed frame in one call and `Read` reads
    exactly one with `io.ReadFull`. The padding is zero here, where the pool's buffers hold old bytes that
    `Read` never looks at. -/

namespace CometBFT

namespace SecretConnection

/-- `dataLenSize`. -/
def dataLenSize : ℕ := 4

/-- `dataMaxSize`. -/
def dataMaxSize : ℕ := 1024

/-- `aeadNonceSize`. -/
def aeadNonceSize : ℕ := 12

/-- `binary.LittleEndian.Uint32` and `Uint64`: the value of little-endian bytes. -/
def fromLittleEndian : List UInt8 → ℕ
  | [] => 0
  | b :: bs => b.toNat + 256 * fromLittleEndian bs

theorem fromLittleEndian_lt (bs : List UInt8) : fromLittleEndian bs < 256 ^ bs.length := by
  induction bs with
  | nil => simp [fromLittleEndian]
  | cons b bs ih =>
    have hb := b.toNat_lt
    rw [fromLittleEndian, List.length_cons, pow_succ]
    omega

theorem fromLittleEndian_littleEndian (k v : ℕ) : fromLittleEndian (littleEndian k v) = v % 256 ^ k := by
  induction k generalizing v with
  | zero => simp [littleEndian, fromLittleEndian, Nat.mod_one]
  | succ k ih =>
    have hlow : v.toUInt8.toNat = v % 256 := by simp
    rw [littleEndian, fromLittleEndian, ih, hlow, pow_succ, mul_comm (256 ^ k) 256, Nat.mod_mul]

/-- A nonce of `aeadNonceSize` bytes, as the Go array type has it. -/
structure Nonce where
  bytes : List UInt8
  length_eq : bytes.length = aeadNonceSize
  deriving DecidableEq

/-- The counter `incrNonce` reads: the nonce's last eight bytes. -/
def Nonce.counter (nonce : Nonce) : ℕ := fromLittleEndian (nonce.bytes.drop 4)

/-- `incrNonce`: `none` is the panic on a counter at `MaxUint64`. -/
def incrNonce (nonce : Nonce) : Option Nonce :=
  if nonce.counter = 2 ^ 64 - 1 then none
  else some ⟨nonce.bytes.take 4 ++ littleEndian 8 (nonce.counter + 1), by
    simp [nonce.length_eq, aeadNonceSize]⟩

theorem Nonce.counter_lt (nonce : Nonce) : nonce.counter < 2 ^ 64 := by
  have h := fromLittleEndian_lt (nonce.bytes.drop 4)
  rw [List.length_drop, nonce.length_eq] at h
  exact h

theorem counter_incrNonce {nonce nonce' : Nonce} (h : incrNonce nonce = some nonce') :
    nonce'.counter = nonce.counter + 1 := by
  unfold incrNonce at h
  split_ifs at h with hmax
  obtain rfl := Option.some.inj h
  have hlt := nonce.counter_lt
  have htake : (nonce.bytes.take 4).length = 4 := by simp [nonce.length_eq, aeadNonceSize]
  rw [Nonce.counter, List.drop_left' htake, fromLittleEndian_littleEndian]
  exact Nat.mod_eq_of_lt (by omega)

theorem incrNonce_isSome {nonce : Nonce} (h : nonce.counter < 2 ^ 64 - 1) : (incrNonce nonce).isSome := by
  unfold incrNonce
  rw [if_neg (by omega)]
  rfl

/-- The frame of a chunk: its length in `dataLenSize` little-endian bytes, the chunk, and padding. -/
def frameOf (chunk : List UInt8) : List UInt8 :=
  littleEndian dataLenSize chunk.length ++ chunk ++ List.replicate (dataMaxSize - chunk.length) 0

/-- One direction of the connection's AEAD, sealing into ciphertexts `C`: `sealAt` is `Seal`, `openAt` is
    `Open`. -/
structure AEAD (C : Type) where
  sealAt : Nonce → List UInt8 → C
  openAt : Nonce → C → Option (List UInt8)

/-- What the theorems assume of the AEAD: `Open` at a nonce inverts `Seal` at that nonce and rejects
    every ciphertext not sealed at that nonce, and no ciphertext is sealed at two nonces. -/
structure AEAD.Ideal {C : Type} (aead : AEAD C) : Prop where
  open_seal : ∀ n p, aead.openAt n (aead.sealAt n p) = some p
  eq_seal_of_open : ∀ n c p, aead.openAt n c = some p → c = aead.sealAt n p
  nonce_eq_of_seal_eq : ∀ n m p q, aead.sealAt n p = aead.sealAt m q → n = m

/-- The AEAD that tags a plaintext with the nonce it is sealed at: it meets the assumptions. -/
def AEAD.tagged : AEAD (Nonce × List UInt8) where
  sealAt n p := (n, p)
  openAt n c := if c.1 = n then some c.2 else none

theorem AEAD.tagged_ideal : AEAD.tagged.Ideal where
  open_seal n p := if_pos rfl
  eq_seal_of_open n c p h := by
    simp only [AEAD.tagged] at h ⊢
    split_ifs at h with hc
    rw [← hc, ← Option.some.inj h]
  nonce_eq_of_seal_eq n m p q h := congrArg Prod.fst h

variable {C : Type}

/-- `Write`: the send nonce after it and the sealed frames, in order; `none` is a panic of `incrNonce`. -/
def write (aead : AEAD C) (sendNonce : Nonce) (data : List UInt8) : Option (Nonce × List C) :=
  if 0 < data.length then
    let chunk := if dataMaxSize < data.length then data.take dataMaxSize else data
    let rest := if dataMaxSize < data.length then data.drop dataMaxSize else []
    match incrNonce sendNonce with
    | none => none
    | some nonce => (write aead nonce rest).map fun (n, frames) => (n, aead.sealAt sendNonce (frameOf chunk) :: frames)
  else some (sendNonce, [])
termination_by data.length
decreasing_by
  split <;> simp only [List.length_drop, List.length_nil] <;> simp only [dataMaxSize] at * <;> omega

/-- Several `Write` calls one after the other. -/
def writeAll (aead : AEAD C) : Nonce → List (List UInt8) → Option (Nonce × List C)
  | n, [] => some (n, [])
  | n, data :: datas =>
    match write aead n data with
    | none => none
    | some (n, frames) => (writeAll aead n datas).map fun (n, rest) => (n, frames ++ rest)

/-- The receiving side of `SecretConnection`. -/
structure RecvState where
  recvNonce : Nonce
  recvBuffer : List UInt8

/-- The errors of `Read`, and the panic of `incrNonce`. -/
inductive ReadError
  /-- `io.ReadFull`: no frame left on the connection -/
  | readFull
  /-- "failed to decrypt SecretConnection" -/
  | decrypt
  /-- "chunkLength is greater than dataMaxSize" -/
  | chunkLength
  | nonceOverflow
  deriving DecidableEq, Repr

/-- `Read` into a buffer of `len` bytes, from the frames on the connection: the bytes read, the state
    after, and the frames left. -/
def read (aead : AEAD C) (s : RecvState) (conn : List C) (len : ℕ) :
    Except ReadError (List UInt8 × RecvState × List C) :=
  if 0 < s.recvBuffer.length then
    let n := min len s.recvBuffer.length
    .ok (s.recvBuffer.take n, { s with recvBuffer := s.recvBuffer.drop n }, conn)
  else
    match conn with
    | [] => .error .readFull
    | sealedFrame :: conn =>
      match aead.openAt s.recvNonce sealedFrame with
      | none => .error .decrypt
      | some frame =>
        match incrNonce s.recvNonce with
        | none => .error .nonceOverflow
        | some recvNonce =>
          let chunkLength := fromLittleEndian (frame.take dataLenSize)
          if chunkLength > dataMaxSize then .error .chunkLength
          else
            let chunk := (frame.drop dataLenSize).take chunkLength
            let n := min len chunk.length
            .ok (chunk.take n, { recvNonce, recvBuffer := if n < chunk.length then chunk.drop n else s.recvBuffer },
              conn)

/-- Several `Read` calls, with buffers of the lengths `lens`: the bytes they return, up to the first
    error. -/
def readAll (aead : AEAD C) : RecvState → List C → List ℕ → List UInt8
  | _, _, [] => []
  | s, conn, len :: lens =>
    match read aead s conn len with
    | .error _ => []
    | .ok (out, s, conn) => out ++ readAll aead s conn lens

/-! ### The sender's log -/

/-- The nonce and the chunk of each frame sealed one after the other from the nonce `n`, and the nonce
    `n'` after the last. -/
inductive SealLog : Nonce → List (Nonce × List UInt8) → Nonce → Prop
  | nil (n : Nonce) : SealLog n [] n
  | cons {n m n' : Nonce} {chunk : List UInt8} {log : List (Nonce × List UInt8)} :
      incrNonce n = some m → SealLog m log n' → SealLog n ((n, chunk) :: log) n'

/-- The sealed frames of a log, in order. -/
def sealedFrames (aead : AEAD C) (log : List (Nonce × List UInt8)) : List C :=
  log.map fun e => aead.sealAt e.1 (frameOf e.2)

/-- The data of a log. -/
def logData (log : List (Nonce × List UInt8)) : List UInt8 := (log.map Prod.snd).flatten

/-- Every chunk of a log has between one and `dataMaxSize` bytes. -/
def ChunksFit (log : List (Nonce × List UInt8)) : Prop := ∀ e ∈ log, 0 < e.2.length ∧ e.2.length ≤ dataMaxSize

@[simp] theorem sealedFrames_cons (aead : AEAD C) (e : Nonce × List UInt8) (log : List (Nonce × List UInt8)) :
    sealedFrames aead (e :: log) = aead.sealAt e.1 (frameOf e.2) :: sealedFrames aead log := rfl

@[simp] theorem logData_cons (e : Nonce × List UInt8) (log : List (Nonce × List UInt8)) :
    logData (e :: log) = e.2 ++ logData log := rfl

theorem SealLog.append {n n₁ n₂ : Nonce} {l₁ l₂ : List (Nonce × List UInt8)} (h₁ : SealLog n l₁ n₁)
    (h₂ : SealLog n₁ l₂ n₂) : SealLog n (l₁ ++ l₂) n₂ := by
  induction h₁ with
  | nil => exact h₂
  | cons hm _ ih => exact .cons hm (ih h₂)

/-- The counters of the nonces of a log, and of the nonce after it, count up one by one. -/
theorem SealLog.counters {n n' : Nonce} {log : List (Nonce × List UInt8)} (h : SealLog n log n') :
    (log.map Prod.fst ++ [n']).map Nonce.counter = List.range' n.counter (log.length + 1) := by
  induction h with
  | nil n => simp
  | cons hm _ ih =>
    rw [List.map_cons, List.cons_append, List.map_cons, ih, counter_incrNonce hm, List.length_cons]
    rfl

/-- No nonce is sealed at twice, and the nonce after the log was not used. -/
theorem SealLog.nodup {n n' : Nonce} {log : List (Nonce × List UInt8)} (h : SealLog n log n') :
    (log.map Prod.fst ++ [n']).Nodup := by
  apply List.Nodup.of_map Nonce.counter
  rw [h.counters]
  exact List.nodup_range'

/-- The rest of a log starts at the nonce the receiver holds. -/
theorem SealLog.drop {n n' : Nonce} {log : List (Nonce × List UInt8)} (h : SealLog n log n') (j : ℕ) :
    ∃ m, SealLog m (log.drop j) n' := by
  induction h generalizing j with
  | nil n => exact ⟨n, by simpa using SealLog.nil n⟩
  | @cons n m n' chunk log hm hlog ih =>
    cases j with
    | zero => exact ⟨n, .cons hm hlog⟩
    | succ j => exact ih j

/-- A `Write` that returns seals the chunks of its data, in order, under consecutive nonces. -/
theorem write_eq_some {aead : AEAD C} {n n' : Nonce} {data : List UInt8} {frames : List C}
    (h : write aead n data = some (n', frames)) :
    ∃ log, SealLog n log n' ∧ frames = sealedFrames aead log ∧ logData log = data ∧ ChunksFit log := by
  induction n, data using write.induct generalizing n' frames with
  | case1 n data hpos hnone =>
    rw [write, if_pos hpos] at h
    simp [hnone] at h
  | case2 n data hpos rest m hm =>
    rename_i ih
    rw [write, if_pos hpos] at h
    dsimp only at h
    rw [hm] at h
    obtain ⟨⟨n'', frames'⟩, hrest, heq⟩ := Option.map_eq_some_iff.mp h
    obtain ⟨log, hlog, rfl, hdata, hfit⟩ := ih hrest
    obtain ⟨rfl, rfl⟩ := Prod.mk.inj heq
    refine ⟨(n, if dataMaxSize < data.length then data.take dataMaxSize else data) :: log, .cons hm hlog, rfl,
      ?_, ?_⟩
    · -- the chunk and the rest make up the data
      rw [logData_cons, hdata]
      split_ifs with hbig
      · simp only [rest, dif_pos hbig]
        exact List.take_append_drop _ _
      · simp only [rest, dif_neg hbig]
        exact List.append_nil _
    · intro e he
      rcases List.mem_cons.mp he with rfl | he
      · split_ifs with hbig <;> simp only [List.length_take] <;> simp only [dataMaxSize] at * <;> omega
      · exact hfit e he
  | case3 n data hpos =>
    rw [write, if_neg hpos] at h
    obtain ⟨rfl, rfl⟩ := Prod.mk.inj (Option.some.inj h)
    refine ⟨[], .nil n, rfl, ?_, by simp [ChunksFit]⟩
    simpa [logData] using hpos

/-- The number of frames `Write` cuts its data into. -/
def frameCount (data : List UInt8) : ℕ := (data.length + dataMaxSize - 1) / dataMaxSize

/-- A `Write` returns unless the nonce's counter runs past `MaxUint64` within it; the counter then moves
    on by one per frame. -/
theorem write_isSome {aead : AEAD C} {n : Nonce} {data : List UInt8} :
    n.counter + frameCount data ≤ 2 ^ 64 - 1 →
      ∃ n' frames, write aead n data = some (n', frames) ∧ n'.counter = n.counter + frameCount data := by
  induction n, data using write.induct with
  | case1 n data hpos hnone =>
    intro h
    have hlt : n.counter < 2 ^ 64 - 1 := by
      simp only [frameCount, dataMaxSize] at h
      have : 1 ≤ (data.length + 1024 - 1) / 1024 := by omega
      omega
    exact absurd hnone (Option.isSome_iff_ne_none.mp (incrNonce_isSome hlt))
  | case2 n data hpos rest m hm =>
    rename_i ih
    intro h
    have hrest : frameCount rest + 1 = frameCount data := by
      by_cases hbig : dataMaxSize < data.length
      · have hr : rest = data.drop dataMaxSize := dif_pos hbig
        rw [hr, frameCount, frameCount, List.length_drop]
        simp only [dataMaxSize] at hbig ⊢
        omega
      · have hr : rest = [] := dif_neg hbig
        rw [hr, frameCount, frameCount, List.length_nil]
        simp only [dataMaxSize] at hbig ⊢
        omega
    obtain ⟨n', frames, hw, hc⟩ := ih (by rw [counter_incrNonce hm]; omega)
    refine ⟨n', aead.sealAt n (frameOf (if dataMaxSize < data.length then data.take dataMaxSize else data)) :: frames,
      ?_, by rw [hc, counter_incrNonce hm]; omega⟩
    rw [write, if_pos hpos]
    dsimp only
    rw [hm, Option.map_eq_some_iff]
    exact ⟨(n', frames), hw, rfl⟩
  | case3 n data hpos =>
    intro _
    refine ⟨n, [], by rw [write, if_neg hpos], ?_⟩
    simp only [frameCount, dataMaxSize]
    omega

/-- A `Write` of no bytes seals no frame. -/
theorem write_nil (aead : AEAD C) (n : Nonce) : write aead n [] = some (n, []) := by
  rw [write, if_neg (by simp)]

/-- A `Write` of at most `dataMaxSize` bytes, and at least one, seals exactly one frame. -/
theorem write_one_frame {aead : AEAD C} {n m : Nonce} {data : List UInt8} (hpos : 0 < data.length)
    (hle : data.length ≤ dataMaxSize) (hm : incrNonce n = some m) :
    write aead n data = some (m, [aead.sealAt n (frameOf data)]) := by
  rw [write, if_pos hpos]
  dsimp only
  rw [if_neg (not_lt.mpr hle), if_neg (not_lt.mpr hle), hm]
  dsimp only
  rw [write_nil]
  rfl

theorem write_empty_seals_no_frame :
    ([] : List UInt8).length ≤ dataMaxSize ∧
      write AEAD.tagged ⟨List.replicate aeadNonceSize 0, List.length_replicate⟩ [] =
        some (⟨List.replicate aeadNonceSize 0, List.length_replicate⟩, []) :=
  ⟨Nat.zero_le _, write_nil _ _⟩

theorem sealedFrames_append (aead : AEAD C) (l₁ l₂ : List (Nonce × List UInt8)) :
    sealedFrames aead (l₁ ++ l₂) = sealedFrames aead l₁ ++ sealedFrames aead l₂ :=
  List.map_append ..

theorem logData_append (l₁ l₂ : List (Nonce × List UInt8)) : logData (l₁ ++ l₂) = logData l₁ ++ logData l₂ := by
  simp [logData]

/-- Writes that return seal the chunks of all their data under consecutive nonces. -/
theorem writeAll_eq_some {aead : AEAD C} {n n' : Nonce} {datas : List (List UInt8)} {frames : List C}
    (h : writeAll aead n datas = some (n', frames)) :
    ∃ log, SealLog n log n' ∧ frames = sealedFrames aead log ∧ logData log = datas.flatten ∧ ChunksFit log := by
  induction datas generalizing n frames with
  | nil =>
    obtain ⟨rfl, rfl⟩ := Prod.mk.inj (Option.some.inj h)
    exact ⟨[], .nil n, rfl, rfl, by simp [ChunksFit]⟩
  | cons data datas ih =>
    rw [writeAll] at h
    split at h
    · cases h
    rename_i n₁ frames₁ hw
    obtain ⟨⟨n₂, rest⟩, hrest, heq⟩ := Option.map_eq_some_iff.mp h
    obtain ⟨rfl, rfl⟩ := Prod.mk.inj heq
    obtain ⟨log₁, hlog₁, rfl, hdata₁, hfit₁⟩ := write_eq_some hw
    obtain ⟨log₂, hlog₂, rfl, hdata₂, hfit₂⟩ := ih hrest
    refine ⟨log₁ ++ log₂, hlog₁.append hlog₂, (sealedFrames_append ..).symm, ?_, ?_⟩
    · rw [logData_append, hdata₁, hdata₂, List.flatten_cons]
    · intro e he
      rcases List.mem_append.mp he with he | he
      · exact hfit₁ e he
      · exact hfit₂ e he

/-- Writes return unless the counter runs past `MaxUint64` within them. -/
theorem writeAll_isSome {aead : AEAD C} {n : Nonce} {datas : List (List UInt8)}
    (h : n.counter + (datas.map frameCount).sum ≤ 2 ^ 64 - 1) :
    ∃ n' frames, writeAll aead n datas = some (n', frames) := by
  induction datas generalizing n with
  | nil => exact ⟨n, [], rfl⟩
  | cons data datas ih =>
    rw [List.map_cons, List.sum_cons] at h
    obtain ⟨n₁, frames₁, hw, hc⟩ := @write_isSome C aead n data (by omega : n.counter + frameCount data ≤ 2 ^ 64 - 1)
    obtain ⟨n', frames, hrest⟩ := ih (by omega : n₁.counter + (datas.map frameCount).sum ≤ 2 ^ 64 - 1)
    exact ⟨n', frames₁ ++ frames, by rw [writeAll, hw]; simp [hrest]⟩

/-! ### Reading frames -/

theorem frameOf_chunkLength {chunk : List UInt8} (h : chunk.length ≤ dataMaxSize) :
    fromLittleEndian ((frameOf chunk).take dataLenSize) = chunk.length := by
  have hlen : (littleEndian dataLenSize chunk.length).length = dataLenSize := length_littleEndian _ _
  rw [frameOf, List.append_assoc, List.take_left' hlen, fromLittleEndian_littleEndian]
  simp only [dataLenSize, dataMaxSize] at h ⊢
  omega

theorem frameOf_chunk (chunk : List UInt8) : ((frameOf chunk).drop dataLenSize).take chunk.length = chunk := by
  have hlen : (littleEndian dataLenSize chunk.length).length = dataLenSize := length_littleEndian _ _
  rw [frameOf, List.append_assoc, List.drop_left' hlen, List.take_left' rfl]

variable {aead : AEAD C} {s : RecvState} {conn : List C} {len : ℕ}

/-- A `Read` while bytes of the last frame are left hands out as many as fit. -/
theorem read_of_buffer (h : 0 < s.recvBuffer.length) :
    read aead s conn len = .ok (s.recvBuffer.take (min len s.recvBuffer.length),
      { s with recvBuffer := s.recvBuffer.drop (min len s.recvBuffer.length) }, conn) := by
  unfold read
  rw [if_pos h]

/-- A `Read` that opens the frame of `chunk` hands out as much of the chunk as fits, and keeps the rest. -/
theorem read_of_open {c : C} {chunk : List UInt8} {m : Nonce} (hbuf : s.recvBuffer = [])
    (hopen : aead.openAt s.recvNonce c = some (frameOf chunk)) (hfit : chunk.length ≤ dataMaxSize)
    (hm : incrNonce s.recvNonce = some m) :
    read aead s (c :: conn) len = .ok (chunk.take (min len chunk.length),
      ⟨m, chunk.drop (min len chunk.length)⟩, conn) := by
  unfold read
  rw [if_neg (by simp [hbuf])]
  dsimp only
  rw [hopen, hm]
  dsimp only
  rw [frameOf_chunkLength hfit, if_neg (not_lt.mpr hfit), frameOf_chunk]
  by_cases hn : min len chunk.length < chunk.length
  · rw [if_pos hn]
  · rw [if_neg hn, hbuf, List.drop_eq_nil_of_le (by omega)]

/-- A `Read` with no bytes left of the last frame returns only after opening the next frame. -/
theorem read_eq_ok_of_empty {r : List UInt8 × RecvState × List C} (hbuf : s.recvBuffer = [])
    (h : read aead s conn len = .ok r) :
    ∃ c conn' frame, conn = c :: conn' ∧ aead.openAt s.recvNonce c = some frame := by
  unfold read at h
  rw [if_neg (by simp [hbuf])] at h
  split at h
  · cases h
  rename_i c conn'
  dsimp only at h
  split at h
  · cases h
  · exact ⟨c, conn', _, rfl, ‹_›⟩

theorem SealLog.eq_of_nil {n n' : Nonce} (h : SealLog n [] n') : n = n' := by
  cases h
  rfl

theorem SealLog.of_cons {n n' : Nonce} {e : Nonce × List UInt8} {log : List (Nonce × List UInt8)}
    (h : SealLog n (e :: log) n') : e.1 = n ∧ ∃ m, incrNonce n = some m ∧ SealLog m log n' := by
  cases h with
  | cons hm hlog => exact ⟨rfl, _, hm, hlog⟩

/-- A frame sealed at another nonce than the receiver's fails to open. -/
theorem read_other_nonce (hA : aead.Ideal) {n : Nonce} {p : List UInt8} (hbuf : s.recvBuffer = [])
    (hn : n ≠ s.recvNonce) : read aead s (aead.sealAt n p :: conn) len = .error .decrypt := by
  have hopen : aead.openAt s.recvNonce (aead.sealAt n p) = none := by
    cases h : aead.openAt s.recvNonce (aead.sealAt n p) with
    | none => rfl
    | some q => exact absurd (hA.nonce_eq_of_seal_eq _ _ _ _ (hA.eq_seal_of_open _ _ _ h)) hn
  unfold read
  rw [if_neg (by simp [hbuf])]
  dsimp only
  rw [hopen]

/-- Under an ideal AEAD, a frame of the session that the receiver opens is the frame sealed at its nonce,
    the next one of the log: the nonces of the log are distinct. -/
theorem SealLog.open_eq (hA : aead.Ideal) {n₀ nEnd : Nonce} {log : List (Nonce × List UInt8)}
    (hlog : SealLog n₀ log nEnd) {j : ℕ} (hj : SealLog s.recvNonce (log.drop j) nEnd) {c : C}
    (hc : c ∈ sealedFrames aead log) {frame : List UInt8} (hopen : aead.openAt s.recvNonce c = some frame) :
    ∃ chunk rest, log.drop j = (s.recvNonce, chunk) :: rest ∧ frame = frameOf chunk := by
  obtain ⟨e, he, rfl⟩ := List.mem_map.mp hc
  have hnonce : e.1 = s.recvNonce := hA.nonce_eq_of_seal_eq _ _ _ _ (hA.eq_seal_of_open _ _ _ hopen)
  obtain ⟨hnodup, -, hfresh⟩ := List.nodup_append.mp hlog.nodup
  cases hdrop : log.drop j with
  | nil =>
    -- the receiver is past the log, at a nonce no frame was sealed at
    rw [hdrop] at hj
    exact absurd (hnonce.trans hj.eq_of_nil) (hfresh e.1 (List.mem_map_of_mem he) nEnd (List.mem_singleton_self _))
  | cons e' rest =>
    rw [hdrop] at hj
    obtain ⟨he'1, -⟩ := hj.of_cons
    have he' : e' ∈ log := List.mem_of_mem_drop (hdrop ▸ List.mem_cons_self ..)
    obtain rfl : e = e' := List.inj_on_of_nodup_map hnodup he he' (hnonce.trans he'1.symm)
    refine ⟨e.2, rest, by rw [← hnonce], ?_⟩
    rw [hnonce] at hopen
    have hself := hA.open_seal s.recvNonce (frameOf e.2)
    rw [hopen] at hself
    exact Option.some.inj hself

/-- What the receiver has taken of the sender's log: its nonce is the one the `j`-th frame was sealed at,
    and what it handed out and still holds is the data of the frames before. -/
def Received (log : List (Nonce × List UInt8)) (nEnd : Nonce) (got : List UInt8) (s : RecvState) : Prop :=
  ∃ j, SealLog s.recvNonce (log.drop j) nEnd ∧ got ++ s.recvBuffer = logData (log.take j)

theorem logData_take_succ {log : List (Nonce × List UInt8)} {j : ℕ} {e : Nonce × List UInt8}
    {rest : List (Nonce × List UInt8)} (h : log.drop j = e :: rest) :
    logData (log.take (j + 1)) = logData (log.take j) ++ e.2 := by
  have hj : log[j]? = some e := by rw [← List.head?_drop, h, List.head?_cons]
  rw [List.take_add_one, hj, Option.toList_some, logData_append]
  simp [logData]

/-- A `Read` of frames of the session keeps what the receiver took a part of the log's data. -/
theorem Received.read (hA : aead.Ideal) {n₀ nEnd : Nonce} {log : List (Nonce × List UInt8)}
    (hlog : SealLog n₀ log nEnd) (hfit : ChunksFit log) {got out : List UInt8} {s' : RecvState}
    {conn' : List C} (hr : Received log nEnd got s) (hconn : ∀ c ∈ conn, c ∈ sealedFrames aead log)
    (h : read aead s conn len = .ok (out, s', conn')) : Received log nEnd (got ++ out) s' ∧ conn' <:+ conn := by
  obtain ⟨j, hj, hgot⟩ := hr
  by_cases hbuf : 0 < s.recvBuffer.length
  · -- bytes of the last frame are left
    rw [read_of_buffer hbuf] at h
    obtain ⟨rfl, h'⟩ := Prod.mk.inj (Except.ok.inj h)
    obtain ⟨rfl, rfl⟩ := Prod.mk.inj h'
    refine ⟨⟨j, hj, ?_⟩, List.suffix_refl _⟩
    dsimp only
    rw [List.append_assoc, List.take_append_drop, hgot]
  · -- the next frame is opened: it is the `j`-th of the log
    have hbuf' : s.recvBuffer = [] := List.eq_nil_of_length_eq_zero (by omega)
    obtain ⟨c, conn'', frame, rfl, hopen⟩ := read_eq_ok_of_empty hbuf' h
    obtain ⟨chunk, rest, hdrop, rfl⟩ := hlog.open_eq hA hj (hconn c List.mem_cons_self) hopen
    rw [hdrop] at hj
    obtain ⟨-, m, hm, hrest⟩ := hj.of_cons
    have hchunk := hfit _ (List.mem_of_mem_drop (hdrop ▸ List.mem_cons_self ..))
    rw [read_of_open hbuf' hopen hchunk.2 hm] at h
    obtain ⟨rfl, h'⟩ := Prod.mk.inj (Except.ok.inj h)
    obtain ⟨rfl, rfl⟩ := Prod.mk.inj h'
    refine ⟨⟨j + 1, ?_, ?_⟩, List.suffix_cons c conn''⟩
    · rw [← List.tail_drop, hdrop]
      exact hrest
    · rw [hbuf', List.append_nil] at hgot
      rw [logData_take_succ hdrop, ← hgot, List.append_assoc, List.take_append_drop]

/-- What the receiver has taken is a prefix of the log's data. -/
theorem Received.prefix {log : List (Nonce × List UInt8)} {nEnd : Nonce} {got : List UInt8}
    (hr : Received log nEnd got s) : got <+: logData log := by
  obtain ⟨j, -, hgot⟩ := hr
  have hdata : logData log = logData (log.take j) ++ logData (log.drop j) := by
    rw [← logData_append, List.take_append_drop]
  rw [hdata, ← hgot, List.append_assoc]
  exact List.prefix_append _ _

/-- Reads of frames of the session return a prefix of the log's data, whatever the frames' order. -/
theorem Received.readAll (hA : aead.Ideal) {n₀ nEnd : Nonce} {log : List (Nonce × List UInt8)}
    (hlog : SealLog n₀ log nEnd) (hfit : ChunksFit log) (lens : List ℕ) :
    ∀ {got s conn}, Received log nEnd got s → (∀ c ∈ conn, c ∈ sealedFrames aead log) →
      got ++ SecretConnection.readAll aead s conn lens <+: logData log := by
  induction lens with
  | nil =>
    intro got s conn hr _
    rw [SecretConnection.readAll, List.append_nil]
    exact hr.prefix
  | cons len lens ih =>
    intro got s conn hr hconn
    rw [SecretConnection.readAll]
    split
    · rw [List.append_nil]
      exact hr.prefix
    · rename_i out s' conn' h
      obtain ⟨hr', hsuffix⟩ := hr.read hA hlog hfit hconn h
      rw [← List.append_assoc]
      exact ih hr' fun c hc => hconn c (hsuffix.subset hc)

/-- Reads with buffers of positive lengths, enough of them, return all the data left to the receiver of
    the frames of a log sealed from its nonce. -/
theorem readAll_sealedFrames (hA : aead.Ideal) {nEnd : Nonce} (lens : List ℕ) (hlens : ∀ l ∈ lens, 0 < l) :
    ∀ {s log}, SealLog s.recvNonce log nEnd → ChunksFit log →
      (s.recvBuffer ++ logData log).length ≤ lens.length →
        SecretConnection.readAll aead s (sealedFrames aead log) lens = s.recvBuffer ++ logData log := by
  induction lens with
  | nil =>
    intro s log _ _ hlen
    rw [SecretConnection.readAll, eq_comm, ← List.length_eq_zero_iff]
    exact Nat.le_zero.mp hlen
  | cons len lens ih =>
    intro s log hlog hfit hlen
    have hpos : 0 < len := hlens len List.mem_cons_self
    have hlens' : ∀ l ∈ lens, 0 < l := fun l hl => hlens l (List.mem_cons_of_mem _ hl)
    rw [List.length_cons] at hlen
    by_cases hbuf : 0 < s.recvBuffer.length
    · -- the bytes left of the last frame come first
      have hlen' : (s.recvBuffer.drop (min len s.recvBuffer.length) ++ logData log).length ≤ lens.length := by
        simp only [List.length_append, List.length_drop] at hlen ⊢
        omega
      rw [SecretConnection.readAll, read_of_buffer hbuf]
      dsimp only
      rw [ih hlens' (s := { s with recvBuffer := s.recvBuffer.drop _ }) hlog hfit hlen', ← List.append_assoc,
        List.take_append_drop]
    · have hbuf' : s.recvBuffer = [] := List.eq_nil_of_length_eq_zero (by omega)
      cases log with
      | nil =>
        rw [SecretConnection.readAll, sealedFrames, List.map_nil]
        unfold read
        rw [if_neg hbuf, hbuf']
        rfl
      | cons e rest =>
        -- the next frame is the one sealed at the receiver's nonce
        obtain ⟨he, m, hm, hrest⟩ := hlog.of_cons
        obtain ⟨hne, hle⟩ := hfit e List.mem_cons_self
        have hfit' : ChunksFit rest := fun e' he' => hfit e' (List.mem_cons_of_mem _ he')
        have hopen : aead.openAt s.recvNonce (aead.sealAt e.1 (frameOf e.2)) = some (frameOf e.2) := by
          rw [he]
          exact hA.open_seal _ _
        have hlen' : (e.2.drop (min len e.2.length) ++ logData rest).length ≤ lens.length := by
          simp only [hbuf', logData_cons, List.nil_append, List.length_append, List.length_drop] at hlen ⊢
          omega
        rw [sealedFrames_cons, SecretConnection.readAll, read_of_open hbuf' hopen hle hm]
        dsimp only
        rw [ih hlens' (s := ⟨m, e.2.drop _⟩) hrest hfit' hlen', ← List.append_assoc, List.take_append_drop, hbuf',
          logData_cons, List.nil_append]

/-! ### A session -/

/-- Writes from the nonce `n₀`, within the counter's range, seal their data under distinct nonces. Reads
    from that nonce, of any frames of the session in any order, return a prefix of the data, and reads of
    the frames as they were written, enough of them, return all of it. A `Write` of one to `dataMaxSize`
    bytes seals one frame, and a frame sealed at another nonce than the receiver's fails to open. -/
theorem secretConnection_framing_lossless (hA : aead.Ideal) (n₀ : Nonce) (ws : List (List UInt8))
    (hbound : n₀.counter + (ws.map frameCount).sum ≤ 2 ^ 64 - 1) :
    ∃ nEnd log, writeAll aead n₀ ws = some (nEnd, sealedFrames aead log) ∧ SealLog n₀ log nEnd ∧
      (log.map Prod.fst ++ [nEnd]).Nodup ∧
      (∀ conn lens, (∀ c ∈ conn, c ∈ sealedFrames aead log) →
        SecretConnection.readAll aead ⟨n₀, []⟩ conn lens <+: ws.flatten) ∧
      (∀ lens, (∀ l ∈ lens, 0 < l) → ws.flatten.length ≤ lens.length →
        SecretConnection.readAll aead ⟨n₀, []⟩ (sealedFrames aead log) lens = ws.flatten) ∧
      (∀ n m data, 0 < data.length → data.length ≤ dataMaxSize → incrNonce n = some m →
        write aead n data = some (m, [aead.sealAt n (frameOf data)])) ∧
      ∀ (s : RecvState) n p conn len, s.recvBuffer = [] → n ≠ s.recvNonce →
        SecretConnection.read aead s (aead.sealAt n p :: conn) len = .error .decrypt := by
  obtain ⟨nEnd, wire, hw⟩ := writeAll_isSome hbound
  obtain ⟨log, hlog, rfl, hdata, hfit⟩ := writeAll_eq_some hw
  have hr₀ : Received log nEnd [] ⟨n₀, []⟩ := ⟨0, by rw [List.drop_zero]; exact hlog, by rw [List.take_zero]; rfl⟩
  refine ⟨nEnd, log, hw, hlog, hlog.nodup, ?_, ?_, fun _ _ _ => write_one_frame, fun _ _ _ _ _ => read_other_nonce hA⟩
  · intro conn lens hconn
    have hprefix := Received.readAll hA hlog hfit lens hr₀ hconn
    rwa [List.nil_append, hdata] at hprefix
  · intro lens hlens hlen
    have hlen' : (([] : List UInt8) ++ logData log).length ≤ lens.length := by rwa [List.nil_append, hdata]
    rw [readAll_sealedFrames hA lens hlens hlog hfit hlen', List.nil_append, hdata]

theorem secretConnection_framing_lossless_twoWrites :
    ∃ nEnd log, writeAll AEAD.tagged ⟨List.replicate aeadNonceSize 0, List.length_replicate⟩ [[1, 2, 3], [4]] =
        some (nEnd, sealedFrames AEAD.tagged log) ∧
      SecretConnection.readAll AEAD.tagged ⟨⟨List.replicate aeadNonceSize 0, List.length_replicate⟩, []⟩
        (sealedFrames AEAD.tagged log) [2, 2, 2, 2] = [1, 2, 3, 4] := by
  obtain ⟨nEnd, log, hw, -, -, -, hread, -⟩ :=
    secretConnection_framing_lossless AEAD.tagged_ideal ⟨List.replicate aeadNonceSize 0, List.length_replicate⟩
      [[1, 2, 3], [4]] (by decide)
  exact ⟨nEnd, log, hw, hread [2, 2, 2, 2] (by decide) (by decide)⟩

end SecretConnection

end CometBFT
