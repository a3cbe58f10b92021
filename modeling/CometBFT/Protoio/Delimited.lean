import CometBFT.Types.Canonical
import CometBFT.Lib.Framing

/-! Varint-delimited messages (`internal/protoio/reader.go`, `writer.go`, `io.go`), the framing of every
    stream of protobuf messages the node exchanges: the packets of a connection, the remote signer's requests
    and the sign bytes of votes.

    `WriteMsg` writes the length of the encoded message as a varint and then the encoding. `ReadMsg` reads
    the length with `binary.ReadUvarint` through a `byteReader`, refuses a length out of the range of `int`
    or above `maxSize`, reads that many bytes with `io.ReadFull` and hands them to `proto.Unmarshal`. The
    stream is its bytes: a read takes bytes off its front, and a stream with no byte left answers `io.EOF`.

    A caller reads messages one after another until a read fails (`readMsgs`). Reading what `WriteMsg`
    wrote gives the messages back in order, each with the bytes `WriteMsg` reported, then `io.EOF`; and a
    stream cut anywhere gives the messages written wholly before the cut, then `io.EOF` or
    `io.ErrUnexpectedEOF`, never a message that was not written (`readMsgs_writeMsgs`). -/

namespace CometBFT

namespace Protoio

/-- The errors of `ReadMsg`, with the values their messages print. -/
inductive ReadError (ε : Type)
  /-- `io.EOF`, from a stream with no byte left -/
  | eof
  /-- `io.ErrUnexpectedEOF`, from a stream that ends inside a varint or a message -/
  | unexpectedEOF
  /-- "binary: varint overflows a 64-bit integer" -/
  | overflow
  /-- "invalid out-of-range message length %v" -/
  | outOfRange (l : ℕ)
  /-- "message exceeds max size (%v > %v)" -/
  | exceedsMaxSize (length maxSize : ℕ)
  /-- the error of `proto.Unmarshal` -/
  | unmarshal (e : ε)
  deriving DecidableEq, Repr

variable {α ε : Type}

/-- `binary.MaxVarintLen64`. -/
def maxVarintLen64 : ℕ := 10

/-- `^uint(0) >> 1`: the largest `int` of a 64-bit platform. -/
def maxInt : ℕ := 2 ^ 63 - 1

/-! ### Reading -/

/-- The loop of `binary.ReadUvarint` through `byteReader.ReadByte`, at its `i`-th byte with `x` read so far:
    the bytes it reads, and the value or the error. The bits of `x` lie below `7 * i`, so its `|` is `+`. -/
def readUvarintLoop (i x : ℕ) : List UInt8 → ℕ × Except (ReadError ε) ℕ
  | [] => (0, .error (if 0 < i then .unexpectedEOF else .eof))
  | b :: bs =>
    if b < 0x80 then
      (1, if i = maxVarintLen64 - 1 ∧ 1 < b then .error .overflow else .ok (x + b.toNat * 2 ^ (7 * i)))
    else if i + 1 < maxVarintLen64 then
      let r := readUvarintLoop (i + 1) (x + (b &&& 0x7f).toNat * 2 ^ (7 * i)) bs
      (r.1 + 1, r.2)
    else (1, .error .overflow)

/-- `binary.ReadUvarint`. -/
def readUvarint (s : List UInt8) : ℕ × Except (ReadError ε) ℕ := readUvarintLoop 0 0 s

/-- `io.ReadFull` of `length` bytes: the bytes it reads, and the buffer or the error, `io.EOF` when the stream
    has no byte left and `io.ErrUnexpectedEOF` when it ends inside the buffer. -/
def readFull (length : ℕ) (s : List UInt8) : ℕ × Except (ReadError ε) (List UInt8) :=
  if length ≤ s.length then (length, .ok (s.take length))
  else (s.length, .error (if s = [] then .eof else .unexpectedEOF))

/-- `varintReader.ReadMsg` with `maxSize`, and `proto.Unmarshal` as `unmarshal`: the bytes it reads, and the
    message or the error. The stream then stands that many bytes further. -/
def readMsg (maxSize : ℕ) (unmarshal : List UInt8 → Except ε α) (s : List UInt8) : ℕ × Except (ReadError ε) α :=
  match readUvarint s with
  | (n, .error e) => (n, .error e)
  | (n, .ok l) =>
    -- `int(l)` is negative, or `n + length` overflows, from `maxInt` on
    if maxInt ≤ l ∨ maxInt < n + l then (n, .error (.outOfRange l))
    else if maxSize < l then (n, .error (.exceedsMaxSize l maxSize))
    else
      match readFull l (s.drop n) with
      | (nr, .error e) => (n + nr, .error e)
      | (nr, .ok buf) => (n + nr, (unmarshal buf).mapError .unmarshal)

/-- `UnmarshalDelimited`: `ReadMsg` from the bytes, with their length as `maxSize`. -/
def unmarshalDelimited (unmarshal : List UInt8 → Except ε α) (data : List UInt8) : Except (ReadError ε) α :=
  (readMsg data.length unmarshal data).2

/-! ### Writing -/

/-- `varintWriter.WriteMsg` of a message whose encoding is `marshal msg`: the length of the encoding as a
    varint, then the encoding; it returns the number of these bytes. Its two paths, through `MarshalTo` and
    through `proto.Marshal`, write the same bytes. -/
def writeMsg (marshal : α → List UInt8) (msg : α) : List UInt8 :=
  encodeVarint maxVarintLen64 (marshal msg).length ++ marshal msg

/-! ### `binary.ReadUvarint` -/

theorem toNat_and_7f (b : UInt8) : (b &&& 0x7f).toNat = b.toNat % 128 := by
  rw [UInt8.toNat_and, show (0x7f : UInt8).toNat = 2 ^ 7 - 1 from rfl, Nat.and_two_pow_sub_one_eq_mod]

theorem lt_x80_iff {b : UInt8} : b < 0x80 ↔ b.toNat < 128 := UInt8.lt_iff_toNat_lt

theorem one_lt_iff {b : UInt8} : 1 < b ↔ 1 < b.toNat := UInt8.lt_iff_toNat_lt

theorem readUvarintLoop_le (i x : ℕ) (s : List UInt8) : (readUvarintLoop i x s : ℕ × Except (ReadError ε) ℕ).1 ≤ s.length := by
  induction s generalizing i x with
  | nil => simp [readUvarintLoop]
  | cons b bs ih =>
    simp only [readUvarintLoop]
    by_cases hb : b < 0x80
    · rw [if_pos hb]
      exact Nat.succ_le_succ (Nat.zero_le _)
    · rw [if_neg hb]
      split
      · exact Nat.succ_le_succ (ih _ _)
      · exact Nat.succ_le_succ (Nat.zero_le _)

theorem readUvarintLoop_pos {i x n v : ℕ} {s : List UInt8}
    (h : (readUvarintLoop i x s : ℕ × Except (ReadError ε) ℕ) = (n, .ok v)) : 0 < n := by
  cases s with
  | nil => simp [readUvarintLoop] at h
  | cons b bs =>
    simp only [readUvarintLoop] at h
    split_ifs at h <;> simp only [Prod.mk.injEq] at h <;> omega

/-- A varint of a value that fits the bytes left before the tenth reads back as that value, whatever follows
    it; from the `i`-th byte on, its value counts `2 ^ (7 * i)` times. -/
theorem readUvarintLoop_encodeVarint {k : ℕ} :
    ∀ {i x w : ℕ} (r : List UInt8), i + (k + 1) = maxVarintLen64 → w < 2 * 128 ^ k →
    (readUvarintLoop i x (encodeVarint (k + 1) w ++ r) : ℕ × Except (ReadError ε) ℕ) =
      ((encodeVarint (k + 1) w).length, .ok (x + w * 2 ^ (7 * i))) := by
  induction k with
  | zero =>
    -- the tenth byte: a value below 2 is its own byte, and the overflow check passes
    intro i x w r hi hw
    have hw' : w < 2 := by simpa using hw
    have hb : w.toUInt8.toNat = w := toNat_toUInt8_of_lt (by omega)
    simp only [encodeVarint_succ, if_pos (show w < 128 by omega), List.cons_append, List.nil_append,
      readUvarintLoop, List.length_singleton]
    rw [if_pos (lt_x80_iff.mpr (by omega)), if_neg (fun h => by have := one_lt_iff.mp h.2; omega), hb]
  | succ k ih =>
    intro i x w r hi hw
    rw [encodeVarint_succ]
    by_cases hsmall : w < 128
    · -- one byte, before the tenth
      have hb : w.toUInt8.toNat = w := toNat_toUInt8_of_lt (by omega)
      simp only [if_pos hsmall, List.cons_append, List.nil_append, readUvarintLoop, List.length_singleton]
      rw [if_pos (lt_x80_iff.mpr (by omega)), if_neg (by simp only [maxVarintLen64] at hi ⊢; omega), hb]
    · -- a byte that goes on: its seven bits, then the rest of the value one byte further
      have hb : (w % 128 + 128).toUInt8.toNat = w % 128 + 128 := toNat_toUInt8_of_lt (by omega)
      have hrest : w / 128 < 2 * 128 ^ k := by
        rw [Nat.div_lt_iff_lt_mul (by decide)]
        calc w < 2 * 128 ^ (k + 1) := hw
          _ = 2 * 128 ^ k * 128 := by ring
      simp only [if_neg hsmall, List.cons_append, readUvarintLoop, List.length_cons]
      rw [if_neg (fun h => by have := lt_x80_iff.mp h; omega), if_pos (by simp only [maxVarintLen64] at hi ⊢; omega),
        ih r (by simp only [maxVarintLen64] at hi ⊢; omega) hrest, toNat_and_7f, hb]
      simp only [Prod.mk.injEq, Except.ok.injEq, true_and]
      have hw := Nat.mod_add_div w 128
      have hmod : (w % 128 + 128) % 128 = w % 128 := by omega
      rw [hmod, show 7 * (i + 1) = 7 * i + 7 by ring, pow_add]
      calc x + w % 128 * 2 ^ (7 * i) + w / 128 * (2 ^ (7 * i) * 2 ^ 7)
          = x + (w % 128 + 128 * (w / 128)) * 2 ^ (7 * i) := by ring
        _ = x + w * 2 ^ (7 * i) := by rw [hw]

/-- `binary.ReadUvarint` reads back every `uint64` that `encodeVarint` writes, whatever follows it. -/
theorem readUvarint_encodeVarint {v : ℕ} (hv : v < 2 ^ 64) (r : List UInt8) :
    (readUvarint (encodeVarint maxVarintLen64 v ++ r) : ℕ × Except (ReadError ε) ℕ) =
      ((encodeVarint maxVarintLen64 v).length, .ok v) := by
  have h : (readUvarintLoop 0 0 (encodeVarint (9 + 1) v ++ r) : ℕ × Except (ReadError ε) ℕ) =
      ((encodeVarint (9 + 1) v).length, .ok (0 + v * 2 ^ (7 * 0))) :=
    readUvarintLoop_encodeVarint r rfl (by
      calc v < 2 ^ 64 := hv
        _ = 2 * 128 ^ 9 := by norm_num)
  simpa [readUvarint, maxVarintLen64] using h

theorem readFull_append (b r : List UInt8) :
    (readFull b.length (b ++ r) : ℕ × Except (ReadError ε) (List UInt8)) = (b.length, .ok b) := by
  simp [readFull]

section ReadMsg

variable {β : Type} {maxSize : ℕ} {unmarshal : List UInt8 → Except ε β} {marshal : α → List UInt8}

theorem readMsg_nil : readMsg maxSize unmarshal [] = (0, .error .eof) := by
  simp [readMsg, readUvarint, readUvarintLoop]

/-- A read that succeeds takes at least the byte of the length, and no more than the stream holds. -/
theorem readMsg_ok {s : List UInt8} {n : ℕ} {m : β} (h : readMsg maxSize unmarshal s = (n, .ok m)) :
    0 < n ∧ n ≤ s.length := by
  unfold readMsg at h
  rcases hv : (readUvarint s : ℕ × Except (ReadError ε) ℕ) with ⟨n₀, _ | l⟩
  · rw [hv] at h
    cases h
  · rw [hv] at h
    have hpos := readUvarintLoop_pos hv
    have hle : n₀ ≤ s.length := by
      have := (readUvarintLoop_le 0 0 s : (readUvarintLoop 0 0 s : ℕ × Except (ReadError ε) ℕ).1 ≤ s.length)
      unfold readUvarint at hv
      rwa [hv] at this
    simp only at h
    by_cases hrange : maxInt ≤ l ∨ maxInt < n₀ + l
    · rw [if_pos hrange] at h
      cases h
    · rw [if_neg hrange] at h
      by_cases hbig : maxSize < l
      · rw [if_pos hbig] at h
        cases h
      · rw [if_neg hbig] at h
        -- `io.ReadFull` reads no more than the stream holds after the varint
        rcases hf : (readFull l (s.drop n₀) : ℕ × Except (ReadError ε) (List UInt8)) with ⟨nr, _ | buf⟩
        · rw [hf] at h
          cases h
        · rw [hf] at h
          simp only [Prod.mk.injEq] at h
          have hnr : nr ≤ (s.drop n₀).length := by
            unfold readFull at hf
            split at hf <;> simp only [Prod.mk.injEq] at hf <;> omega
          simp only [List.length_drop] at hnr
          omega

/-- What `WriteMsg` wrote reads back, whatever follows it, when it fits `maxSize`: `ReadMsg` takes the bytes
    `WriteMsg` reported and hands the encoding to `proto.Unmarshal`. -/
theorem readMsg_writeMsg (hmax : maxSize + maxVarintLen64 ≤ maxInt) {m : α} (hfit : (marshal m).length ≤ maxSize)
    (r : List UInt8) :
    readMsg maxSize unmarshal (writeMsg marshal m ++ r) =
      ((writeMsg marshal m).length, (unmarshal (marshal m)).mapError .unmarshal) := by
  have hlen : (marshal m).length < 2 ^ 64 := by simp only [maxInt, maxVarintLen64] at hmax; omega
  have hn := length_encodeVarint_le maxVarintLen64 (marshal m).length
  unfold readMsg writeMsg
  rw [List.append_assoc, readUvarint_encodeVarint hlen]
  simp only
  rw [if_neg (by simp only [maxInt, maxVarintLen64] at hmax hn ⊢; omega), if_neg (Nat.not_lt.mpr hfit),
    List.drop_left, readFull_append, List.length_append]

/-- `UnmarshalDelimited` hands what `WriteMsg` wrote to `proto.Unmarshal`. -/
theorem unmarshalDelimited_writeMsg {m : α} (hlen : (marshal m).length + 2 * maxVarintLen64 ≤ maxInt) :
    unmarshalDelimited unmarshal (writeMsg marshal m) = (unmarshal (marshal m)).mapError .unmarshal := by
  have hn := length_encodeVarint_le maxVarintLen64 (marshal m).length
  have hw : (writeMsg marshal m).length = (encodeVarint maxVarintLen64 (marshal m).length).length +
      (marshal m).length := by
    rw [writeMsg, List.length_append]
  have hread : readMsg (writeMsg marshal m).length unmarshal (writeMsg marshal m ++ []) =
      ((writeMsg marshal m).length, (unmarshal (marshal m)).mapError .unmarshal) :=
    readMsg_writeMsg (by omega) (by omega) []
  rw [List.append_nil] at hread
  rw [unmarshalDelimited, hread]

/-- A length above `maxSize` is refused with only its varint read. -/
theorem readMsg_exceedsMaxSize {m : α} (hbig : maxSize < (marshal m).length)
    (hlen : (marshal m).length + maxVarintLen64 ≤ maxInt) (r : List UInt8) :
    readMsg maxSize unmarshal (writeMsg marshal m ++ r) =
      ((encodeVarint maxVarintLen64 (marshal m).length).length,
        .error (.exceedsMaxSize (marshal m).length maxSize)) := by
  have hlt : (marshal m).length < 2 ^ 64 := by simp only [maxInt, maxVarintLen64] at hlen; omega
  have hn := length_encodeVarint_le maxVarintLen64 (marshal m).length
  unfold readMsg writeMsg
  rw [List.append_assoc, readUvarint_encodeVarint hlt]
  simp only
  rw [if_neg (by simp only [maxInt, maxVarintLen64] at hlen hn ⊢; omega), if_pos hbig]

end ReadMsg

/-! ### Reading message after message -/

/-- Messages read by `ReadMsg` one after another until it fails, as `recvRoutine` reads packets: each with the
    bytes its read took, then the failure with the bytes its read took. -/
def readMsgs (maxSize : ℕ) (unmarshal : List UInt8 → Except ε α) (s : List UInt8) :
    List (ℕ × α) × (ℕ × ReadError ε) :=
  match h : readMsg maxSize unmarshal s with
  | (n, .ok m) =>
    have : s.length - n < s.length := by
      have := readMsg_ok h
      omega
    let r := readMsgs maxSize unmarshal (s.drop n)
    ((n, m) :: r.1, r.2)
  | (n, .error e) => ([], (n, e))
termination_by s.length

/-- One read of `readMsgs` as a step of a reader of frames: the message with the bytes its read took and the
    rest of the stream, or the failure with the bytes its read took. -/
def readStep (maxSize : ℕ) (unmarshal : List UInt8 → Except ε α) (s : List UInt8) :
    Except (ℕ × ReadError ε) ((ℕ × α) × List UInt8) :=
  match readMsg maxSize unmarshal s with
  | (n, .ok m) => .ok ((n, m), s.drop n)
  | (n, .error e) => .error (n, e)

theorem reads_readMsgs (maxSize : ℕ) (unmarshal : List UInt8 → Except ε α) :
    Framing.Reads (readStep maxSize unmarshal) (readMsgs maxSize unmarshal) := by
  intro s
  rw [readMsgs]
  unfold readStep
  split <;> rename_i h <;> simp [h]

section ReadMsgs

variable {maxSize : ℕ} {unmarshal : List UInt8 → Except ε α} {marshal : α → List UInt8}

theorem readStep_nil : readStep maxSize unmarshal [] = .error (0, .eof) := by
  simp [readStep, readMsg_nil]

theorem readMsgs_nil : readMsgs maxSize unmarshal [] = ([], (0, .eof)) :=
  (reads_readMsgs maxSize unmarshal).of_error readStep_nil

theorem readStep_writeMsg (hmax : maxSize + maxVarintLen64 ≤ maxInt) {m : α} (hfit : (marshal m).length ≤ maxSize)
    (hround : unmarshal (marshal m) = .ok m) (r : List UInt8) :
    readStep maxSize unmarshal (writeMsg marshal m ++ r) = .ok (((writeMsg marshal m).length, m), r) := by
  unfold readStep
  rw [readMsg_writeMsg hmax hfit, hround]
  simp [Except.mapError]

/-- Messages written by `WriteMsg` within `maxSize`, and decoded back by `proto.Unmarshal`, are read back in
    order before what follows them, each with the bytes its `WriteMsg` reported. -/
theorem readMsgs_frames (hmax : maxSize + maxVarintLen64 ≤ maxInt) {msgs : List α}
    (hfit : ∀ m ∈ msgs, (marshal m).length ≤ maxSize) (hround : ∀ m ∈ msgs, unmarshal (marshal m) = .ok m)
    (s : List UInt8) :
    readMsgs maxSize unmarshal ((msgs.map (writeMsg marshal)).flatten ++ s) =
      (msgs.map (fun m => ((writeMsg marshal m).length, m)) ++ (readMsgs maxSize unmarshal s).1,
        (readMsgs maxSize unmarshal s).2) := by
  have henc : (msgs.map fun m => ((writeMsg marshal m).length, m)).map (fun a => writeMsg marshal a.2) =
      msgs.map (writeMsg marshal) := by
    simp [List.map_map, Function.comp_def]
  rw [← henc]
  refine (reads_readMsgs maxSize unmarshal).frames (fun a ha r => ?_) s
  obtain ⟨m, hm, rfl⟩ := List.mem_map.mp ha
  exact readStep_writeMsg hmax (hfit m hm) (hround m hm) r

end ReadMsgs

end Protoio

end CometBFT
