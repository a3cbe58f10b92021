import CometBFT.Lib.PrefixCode
import CometBFT.Types.Vote

/-! The sign bytes of votes and vote extensions (`types/canonical.go`, `types/vote.go`,
    `internal/protoio/writer.go`, and the generated `MarshalToSizedBuffer` of the canonical messages in
    `api/cometbft/types/v1/canonical.pb.go`).

    A message is its fields in field order, each a tag byte and its value, left out when it has its zero
    value; a nested message or a byte string carries its length in front, as a varint, and a `sfixed64`
    is its eight bytes, lowest first. A time is the nested `google.protobuf.Timestamp` of its seconds and
    nanoseconds and is never left out. `MarshalDelimited` puts the length of the message in front.

    The encoding is a prefix code field by field. Equal vote sign bytes therefore have equal type, height
    and round as `int64`s, and at one type, height, round and chain equal sign bytes have equal block IDs;
    no vote's sign bytes are the sign bytes of a vote extension. -/

namespace CometBFT

open PrefixCode

/-! ### Varints and fixed-width integers -/

theorem encodeVarint_succ (n v : Nat) :
    encodeVarint (n + 1) v =
      if v < 128 then [v.toUInt8] else (v % 128 + 128).toUInt8 :: encodeVarint n (v / 128) := rfl

theorem toNat_toUInt8_of_lt {v : Nat} (h : v < 256) : v.toUInt8.toNat = v := by
  simp [Nat.mod_eq_of_lt h]

theorem length_encodeVarint_le (n v : Nat) : (encodeVarint n v).length ≤ n := by
  induction n generalizing v with
  | zero => simp [encodeVarint]
  | succ n ih =>
    rw [encodeVarint_succ]
    split
    · simp
    · simpa using ih (v / 128)

/-- A varint ends at its first byte below 128, or after its tenth: its words are a prefix code. -/
theorem encodeVarint_prefixFree (n : Nat) : PrefixFreeOn Set.univ (encodeVarint n) := by
  induction n with
  | zero => intro a _ b x y h; exact ⟨rfl, by simpa [encodeVarint] using h⟩
  | succ n ih =>
    intro a _ b x y h
    rw [encodeVarint_succ, encodeVarint_succ] at h ⊢
    split_ifs at h ⊢ with ha hb hb
    · simp only [List.cons_append, List.nil_append, List.cons.injEq] at h
      exact ⟨by rw [h.1], h.2⟩
    · -- a last byte against a byte that goes on
      simp only [List.cons_append, List.nil_append, List.cons.injEq] at h
      have := congrArg UInt8.toNat h.1
      rw [toNat_toUInt8_of_lt (by omega), toNat_toUInt8_of_lt (by omega)] at this
      omega
    · simp only [List.cons_append, List.nil_append, List.cons.injEq] at h
      have := congrArg UInt8.toNat h.1
      rw [toNat_toUInt8_of_lt (by omega), toNat_toUInt8_of_lt (by omega)] at this
      omega
    · simp only [List.cons_append, List.cons.injEq] at h
      obtain ⟨hw, hxy⟩ := ih _ trivial _ _ _ h.2
      exact ⟨by rw [h.1, hw], hxy⟩

/-- A varint of a value it can hold is the word of that value only. -/
theorem encodeVarint_inj {n a b : Nat} (ha : a < 128 ^ (n + 1))
    (h : encodeVarint (n + 1) a = encodeVarint (n + 1) b) : a = b := by
  induction n generalizing a b with
  | zero =>
    rw [encodeVarint_succ _ a, encodeVarint_succ _ b] at h
    split_ifs at h with ha' hb
    · have := congrArg UInt8.toNat (List.cons.inj h).1
      rwa [toNat_toUInt8_of_lt (by omega), toNat_toUInt8_of_lt (by omega)] at this
    · have := congrArg UInt8.toNat (List.cons.inj h).1
      rw [toNat_toUInt8_of_lt (by omega), toNat_toUInt8_of_lt (by omega)] at this
      omega
    all_goals omega
  | succ n ih =>
    rw [encodeVarint_succ _ a, encodeVarint_succ _ b] at h
    split_ifs at h with ha' hb hb
    · have := congrArg UInt8.toNat (List.cons.inj h).1
      rwa [toNat_toUInt8_of_lt (by omega), toNat_toUInt8_of_lt (by omega)] at this
    · have := congrArg UInt8.toNat (List.cons.inj h).1
      rw [toNat_toUInt8_of_lt (by omega), toNat_toUInt8_of_lt (by omega)] at this
      omega
    · have := congrArg UInt8.toNat (List.cons.inj h).1
      rw [toNat_toUInt8_of_lt (by omega), toNat_toUInt8_of_lt (by omega)] at this
      omega
    · -- both go on: the low seven bits agree, and the rest by induction
      obtain ⟨h₁, h₂⟩ := List.cons.inj h
      have hlow := congrArg UInt8.toNat h₁
      rw [toNat_toUInt8_of_lt (by omega), toNat_toUInt8_of_lt (by omega)] at hlow
      have hhigh := ih (by rw [Nat.div_lt_iff_lt_mul (by decide)]; rwa [← Nat.pow_succ]) h₂
      omega

/-- A length code for byte strings whose length is below `2^70`. -/
theorem prefixFreeOn_lenPrefixed_encodeVarint :
    PrefixFreeOn {v : List UInt8 | v.length ∈ {n | n < 128 ^ 10}} (lenPrefixed (encodeVarint 10)) :=
  prefixFreeOn_lenPrefixed (encodeVarint_prefixFree 10) fun _ hn _ h => encodeVarint_inj hn h

theorem lenPrefixed_encodeVarint_injective : Function.Injective (lenPrefixed (encodeVarint 10) : List UInt8 → _) :=
  lenPrefixed_injective (encodeVarint_prefixFree 10)

/-- `binary.LittleEndian.PutUint64` and its like: the `k` low bytes of `v`, lowest first. -/
def littleEndian : Nat → Nat → List UInt8
  | 0, _ => []
  | k + 1, v => v.toUInt8 :: littleEndian k (v / 256)

@[simp] theorem length_littleEndian (k v : Nat) : (littleEndian k v).length = k := by
  induction k generalizing v with
  | zero => rfl
  | succ k ih => simp [littleEndian, ih]

theorem littleEndian_inj {k a b : Nat} (ha : a < 256 ^ k) (hb : b < 256 ^ k)
    (h : littleEndian k a = littleEndian k b) : a = b := by
  induction k generalizing a b with
  | zero => simp only [pow_zero] at ha hb; omega
  | succ k ih =>
    simp only [littleEndian, List.cons.injEq] at h
    have hlow : a % 256 = b % 256 := by simpa using congrArg UInt8.toNat h.1
    have hhigh := ih (by rw [Nat.div_lt_iff_lt_mul (by decide)]; rwa [← Nat.pow_succ])
      (by rw [Nat.div_lt_iff_lt_mul (by decide)]; rwa [← Nat.pow_succ]) h.2
    omega

/-- `uint64(x)` of an `int64`: two's complement. -/
def toUint64 (x : Int) : Nat := (x % 2 ^ 64).toNat

theorem toUint64_lt (x : Int) : toUint64 x < 256 ^ 8 := by
  unfold toUint64
  omega

theorem toUint64_inj {x y : Int} (hx : minInt64 ≤ x ∧ x ≤ maxInt64) (hy : minInt64 ≤ y ∧ y ≤ maxInt64)
    (h : toUint64 x = toUint64 y) : x = y := by
  unfold toUint64 at h
  simp only [minInt64, maxInt64] at hx hy
  omega

/-- Equal `sfixed64` fields of equal tag hold the same `uint64`. -/
theorem toUint64_eq_of_field_eq {t : UInt8} {x y : Int}
    (h : field t (fun h => littleEndian 8 (toUint64 h)) (nonDefault 0 x) =
      field t (fun h => littleEndian 8 (toUint64 h)) (nonDefault 0 y)) : toUint64 x = toUint64 y := by
  rcases field_nonDefault_eq h with rfl | hw
  · rfl
  · exact littleEndian_inj (toUint64_lt x) (toUint64_lt y) hw

/-! ### Block IDs -/

/-- `SignedMsgType` as its protobuf enum value. -/
def SignedMsgType.code : SignedMsgType → Nat
  | .unknown => 0
  | .prevote => 1
  | .precommit => 2
  | .proposal => 32

theorem SignedMsgType.code_injective : Function.Injective SignedMsgType.code := by
  intro a b h
  cases a <;> cases b <;> first | rfl | cases h

/-- `CanonicalizeBlockID`: a nil block ID is left out, another is copied; `none` is the panic on a block
    ID that `BlockIDFromProto` refuses. A canonical block ID has the fields of a `BlockID`. -/
def canonicalizeBlockID (bid : BlockID) : Option (Option BlockID) :=
  match blockIDFromProto bid with
  | .error _ => none
  | .ok rbid =>
    if rbid.isNil then some none
    else some (some { hash := bid.hash, partSetHeader := bid.partSetHeader })

/-- `CanonicalBlockID.Marshal`: field 1 the hash, left out when empty, and field 2 the part set header,
    which is never left out. A canonical part set header is encoded as a `PartSetHeader`. -/
def BlockID.canonicalMarshal (b : BlockID) : List UInt8 :=
  field 0x0a (lenPrefixed (encodeVarint 10)) (nonDefault [] b.hash) ++
    field 0x12 (lenPrefixed (encodeVarint 10)) (some b.partSetHeader.marshal)

/-- The hashes of a block ID that `BlockIDFromProto` accepts are at most `tmhash.Size` long. -/
def BlockID.HashesFit (b : BlockID) : Prop :=
  b.hash.length ≤ tmhashSize ∧ b.partSetHeader.hash.length ≤ tmhashSize

theorem validateHash_eq_ok {h : List UInt8} {u : Unit} (hv : validateHash h = .ok u) : h.length ≤ tmhashSize := by
  unfold validateHash at hv
  split_ifs at hv with hc
  unfold tmhashSize at *
  omega

theorem blockIDFromProto_eq_ok {bid r : BlockID} (h : blockIDFromProto bid = .ok r) :
    r = bid ∧ bid.HashesFit := by
  unfold blockIDFromProto partSetHeaderFromProto PartSetHeader.validateBasic at h
  cases hp : validateHash bid.partSetHeader.hash with
  | error e => simp [hp] at h
  | ok u =>
    cases hv : validateHash bid.hash with
    | error e => simp [hp, hv, BlockID.validateBasic] at h
    | ok u' =>
      simp [hp, hv, BlockID.validateBasic, PartSetHeader.validateBasic] at h
      subst h
      exact ⟨rfl, validateHash_eq_ok hv, validateHash_eq_ok hp⟩

theorem BlockID.eq_of_isNil {a b : BlockID} (ha : a.isNil) (hb : b.isNil) : a = b := by
  obtain ⟨ah, ⟨at', aph⟩⟩ := a
  obtain ⟨bh, ⟨bt, bph⟩⟩ := b
  simp only [BlockID.isNil, PartSetHeader.isZero, decide_eq_true_eq, List.length_eq_zero_iff] at ha hb
  obtain ⟨rfl, rfl, rfl⟩ := ha
  obtain ⟨rfl, rfl, rfl⟩ := hb
  rfl

/-- Two block IDs with one canonical form are the same: nil block IDs are all equal, as byte slices
    compare by content. -/
theorem canonicalizeBlockID_inj {a b : BlockID} {c : Option BlockID} (ha : canonicalizeBlockID a = some c)
    (hb : canonicalizeBlockID b = some c) : a = b := by
  unfold canonicalizeBlockID at ha hb
  split at ha
  · cases ha
  rename_i ra hra
  split at hb
  · cases hb
  rename_i rb hrb
  rw [(blockIDFromProto_eq_ok hra).1] at ha
  rw [(blockIDFromProto_eq_ok hrb).1] at hb
  split_ifs at ha hb with hna hnb hnb
  · exact BlockID.eq_of_isNil hna hnb
  · rw [← hb] at ha; cases ha
  · rw [← hb] at ha; cases ha
  · rw [← hb] at ha
    simp only [Option.some.injEq] at ha
    cases a; cases b
    simp_all

theorem canonicalizeBlockID_hashesFit {bid c : BlockID} (h : canonicalizeBlockID bid = some (some c)) :
    c.HashesFit := by
  unfold canonicalizeBlockID at h
  split at h
  · cases h
  rename_i r hr
  obtain ⟨rfl, hfit⟩ := blockIDFromProto_eq_ok hr
  split_ifs at h
  · cases h
  · simp only [Option.some.injEq] at h
    subst h
    exact hfit

theorem PartSetHeader.marshal_eq (psh : PartSetHeader) :
    psh.marshal = field 0x08 (fun t : UInt32 => encodeVarint 10 t.toNat) (nonDefault 0 psh.total) ++
      field 0x12 (lenPrefixed (encodeVarint 10)) (nonDefault [] psh.hash) := by
  unfold PartSetHeader.marshal nonDefault lenPrefixed
  split_ifs <;> simp_all

theorem PartSetHeader.marshal_injective : Function.Injective PartSetHeader.marshal := by
  intro a b h
  rw [PartSetHeader.marshal_eq, PartSetHeader.marshal_eq] at h
  have hpf : PrefixFreeOn Set.univ (fun t : UInt32 => encodeVarint 10 t.toNat) :=
    (encodeVarint_prefixFree 10).comp UInt32.toNat
  obtain ⟨htotal, hhash⟩ := field_append_cancel hpf (fun _ _ => trivial)
    (head?_field_ne (by decide)) (head?_field_ne (by decide)) h
  have ht : a.total = b.total := by
    refine nonDefault_injective 0 (field_injective (fun x y hxy => ?_) htotal)
    exact UInt32.toNat_inj.mp (encodeVarint_inj (by have := x.toNat_lt; omega) hxy)
  have hh : a.hash = b.hash :=
    nonDefault_injective [] (field_injective lenPrefixed_encodeVarint_injective hhash)
  cases a; cases b
  simp_all

theorem length_marshal_le {psh : PartSetHeader} (h : psh.hash.length ≤ tmhashSize) : psh.marshal.length ≤ 54 := by
  have h₁ := length_encodeVarint_le 10 psh.total.toNat
  have h₂ := length_encodeVarint_le 10 psh.hash.length
  unfold tmhashSize at h
  unfold PartSetHeader.marshal
  split_ifs <;> simp <;> omega

theorem length_canonicalMarshal_le {b : BlockID} (h : b.HashesFit) : b.canonicalMarshal.length ≤ 110 := by
  have h₁ := length_encodeVarint_le 10 b.hash.length
  have h₂ := length_encodeVarint_le 10 b.partSetHeader.marshal.length
  have h₃ := length_marshal_le h.2
  have h₄ := h.1
  unfold tmhashSize at h₄
  unfold BlockID.canonicalMarshal nonDefault lenPrefixed
  split_ifs <;> simp <;> omega

theorem canonicalMarshal_inj {a b : BlockID} (ha : a.HashesFit) (h : a.canonicalMarshal = b.canonicalMarshal) :
    a = b := by
  unfold BlockID.canonicalMarshal at h
  have hfit : ∀ x ∈ nonDefault [] a.hash, x ∈ {v : List UInt8 | v.length ∈ {n | n < 128 ^ 10}} := by
    intro x hx
    unfold nonDefault at hx
    split_ifs at hx
    · cases hx
    simp only [Option.mem_def, Option.some.injEq] at hx
    subst hx
    have := ha.1
    unfold tmhashSize at this
    show a.hash.length < 128 ^ 10
    omega
  obtain ⟨hhash, hpsh⟩ := field_append_cancel prefixFreeOn_lenPrefixed_encodeVarint hfit
    (by simp) (by simp) h
  have hh : a.hash = b.hash := nonDefault_injective [] (field_injective lenPrefixed_encodeVarint_injective hhash)
  have hp : a.partSetHeader = b.partSetHeader :=
    PartSetHeader.marshal_injective (lenPrefixed_encodeVarint_injective (by simpa using hpsh))
  cases a; cases b
  simp_all

/-! ### Votes -/

/-- `CanonicalVote`. The time is nanoseconds since the epoch, as in `Vote`, and the chain ID is its bytes. -/
structure CanonicalVote where
  type : SignedMsgType
  height : Int
  round : Int
  blockID : Option BlockID
  timestamp : Int
  chainID : List UInt8
  deriving Repr, DecidableEq

/-- `CanonicalizeVote`; `none` is the panic of `CanonicalizeBlockID`. -/
def canonicalizeVote (chainID : List UInt8) (vote : Vote) : Option CanonicalVote := do
  let blockID ← canonicalizeBlockID vote.blockID
  pure
    { type := vote.type, height := vote.height, round := vote.round, blockID,
      timestamp := vote.timestamp, chainID }

/-- The seconds of a `google.protobuf.Timestamp` run from year 1 to before year 10000. -/
def minValidSeconds : Int := -62135596800

def maxValidSeconds : Int := 253402300800

/-- `StdTimeMarshalTo`: field 1 the seconds and field 2 the nanoseconds, each left out when zero; `none` is
    the error on a time out of range. -/
def marshalTime (t : Int) : Option (List UInt8) :=
  let seconds := t / 1000000000
  let nanos := t % 1000000000
  if seconds < minValidSeconds ∨ seconds ≥ maxValidSeconds then none
  else some (field 0x08 (fun s => encodeVarint 10 (toUint64 s)) (nonDefault 0 seconds) ++
    field 0x10 (fun n => encodeVarint 10 n.toNat) (nonDefault 0 nanos))

/-- The fields of a `CanonicalVote` whose time is encoded as `timestamp`: type, height, round, block ID,
    time and chain ID, in field order. -/
def CanonicalVote.encode (v : CanonicalVote) (timestamp : List UInt8) : List UInt8 :=
  field 0x08 (fun t => encodeVarint 10 t.code) (nonDefault .unknown v.type) ++
    (field 0x11 (fun h => littleEndian 8 (toUint64 h)) (nonDefault 0 v.height) ++
    (field 0x19 (fun r => littleEndian 8 (toUint64 r)) (nonDefault 0 v.round) ++
    (field 0x22 (fun b => lenPrefixed (encodeVarint 10) b.canonicalMarshal) v.blockID ++
    (field 0x2a (lenPrefixed (encodeVarint 10)) (some timestamp) ++
    field 0x32 (lenPrefixed (encodeVarint 10)) (nonDefault [] v.chainID)))))

/-- `CanonicalVote.Marshal`; `none` is the error of its time. -/
def CanonicalVote.marshal (v : CanonicalVote) : Option (List UInt8) := (marshalTime v.timestamp).map v.encode

/-- `protoio.MarshalDelimited`: the message preceded by its length. -/
def marshalDelimited (msg : List UInt8) : List UInt8 := lenPrefixed (encodeVarint 10) msg

/-- `VoteSignBytes`; `none` is its panic. -/
def voteSignBytes (chainID : List UInt8) (vote : Vote) : Option (List UInt8) := do
  let cv ← canonicalizeVote chainID vote
  let msg ← cv.marshal
  pure (marshalDelimited msg)

/-- `CanonicalVoteExtension`. -/
structure CanonicalVoteExtension where
  extension : List UInt8
  height : Int
  round : Int
  chainId : List UInt8
  deriving Repr, DecidableEq

/-- `CanonicalizeVoteExtension`. -/
def canonicalizeVoteExtension (chainID : List UInt8) (vote : Vote) : CanonicalVoteExtension :=
  { extension := vote.extension, height := vote.height, round := vote.round, chainId := chainID }

/-- `CanonicalVoteExtension.Marshal`: extension, height, round and chain ID, in field order. -/
def CanonicalVoteExtension.marshal (e : CanonicalVoteExtension) : List UInt8 :=
  field 0x0a (lenPrefixed (encodeVarint 10)) (nonDefault [] e.extension) ++
    (field 0x11 (fun h => littleEndian 8 (toUint64 h)) (nonDefault 0 e.height) ++
    (field 0x19 (fun r => littleEndian 8 (toUint64 r)) (nonDefault 0 e.round) ++
    field 0x22 (lenPrefixed (encodeVarint 10)) (nonDefault [] e.chainId)))

/-- `VoteExtensionSignBytes`. -/
def voteExtensionSignBytes (chainID : List UInt8) (vote : Vote) : List UInt8 :=
  marshalDelimited (canonicalizeVoteExtension chainID vote).marshal

theorem canonicalizeVote_eq_some {c : List UInt8} {v : Vote} {cv : CanonicalVote} :
    canonicalizeVote c v = some cv ↔ ∃ b, canonicalizeBlockID v.blockID = some b ∧
      cv = { type := v.type, height := v.height, round := v.round, blockID := b,
             timestamp := v.timestamp, chainID := c } := by
  simp only [canonicalizeVote, Option.bind_eq_bind, Option.bind_eq_some_iff, Option.pure_def,
    Option.some.injEq]
  exact exists_congr fun _ => and_congr_right fun _ => eq_comm

theorem voteSignBytes_eq_some {c : List UInt8} {v : Vote} {m : List UInt8} (h : voteSignBytes c v = some m) :
    ∃ b ts, canonicalizeBlockID v.blockID = some b ∧ marshalTime v.timestamp = some ts ∧
      m = marshalDelimited (CanonicalVote.encode
        { type := v.type, height := v.height, round := v.round, blockID := b,
          timestamp := v.timestamp, chainID := c } ts) := by
  simp only [voteSignBytes, Option.bind_eq_bind, Option.bind_eq_some_iff, Option.pure_def,
    Option.some.injEq] at h
  obtain ⟨cv, hcv, msg, hmsg, rfl⟩ := h
  obtain ⟨b, hb, rfl⟩ := canonicalizeVote_eq_some.mp hcv
  simp only [CanonicalVote.marshal, Option.map_eq_some_iff] at hmsg
  obtain ⟨ts, hts, rfl⟩ := hmsg
  exact ⟨b, ts, hb, hts, rfl⟩

/-- The block ID field of a vote: a length-prefixed canonical block ID, short when it was canonicalized. -/
theorem blockID_field_eq {b : Option BlockID} :
    field 0x22 (fun b : BlockID => lenPrefixed (encodeVarint 10) b.canonicalMarshal) b =
      field 0x22 (lenPrefixed (encodeVarint 10)) (b.map BlockID.canonicalMarshal) :=
  field_comp (e := lenPrefixed (encodeVarint 10)) BlockID.canonicalMarshal b

theorem canonicalMarshal_mem_short {bid : BlockID} {b : Option BlockID} (hb : canonicalizeBlockID bid = some b) :
    ∀ x ∈ b.map BlockID.canonicalMarshal, x ∈ {v : List UInt8 | v.length ∈ {n | n < 128 ^ 10}} := by
  intro x hx
  obtain ⟨c, hc, rfl⟩ := Option.mem_map.mp hx
  have := length_canonicalMarshal_le (canonicalizeBlockID_hashesFit (hc ▸ hb))
  show c.canonicalMarshal.length < 128 ^ 10
  omega

/-- Equal vote sign bytes are of one type, and of one height and round as `int64`s. -/
theorem voteSignBytes_hrs {c c' : List UInt8} {v v' : Vote} {m : List UInt8} (h : voteSignBytes c v = some m)
    (h' : voteSignBytes c' v' = some m) :
    v.type = v'.type ∧ toUint64 v.height = toUint64 v'.height ∧ toUint64 v.round = toUint64 v'.round := by
  obtain ⟨b, ts, -, -, rfl⟩ := voteSignBytes_eq_some h
  obtain ⟨b', ts', -, -, hm⟩ := voteSignBytes_eq_some h'
  have he := lenPrefixed_encodeVarint_injective hm
  unfold CanonicalVote.encode at he
  have hcode : Function.Injective (fun t : SignedMsgType => encodeVarint 10 t.code) :=
    fun a b hab => SignedMsgType.code_injective (encodeVarint_inj (by cases a <;> decide) hab)
  -- type, height and round come off in turn
  obtain ⟨htype, he⟩ := field_append_cancel ((encodeVarint_prefixFree 10).comp SignedMsgType.code)
    (fun _ _ => trivial) (head?_field_append_ne (by decide) (head?_field_append_ne (by decide)
      (head?_field_append_ne (by decide) (by simp))))
    (head?_field_append_ne (by decide) (head?_field_append_ne (by decide)
      (head?_field_append_ne (by decide) (by simp)))) he
  obtain ⟨hheight, he⟩ := field_append_cancel (prefixFreeOn_of_length (s := Set.univ) (by simp))
    (fun _ _ => trivial) (head?_field_append_ne (by decide) (head?_field_append_ne (by decide) (by simp)))
    (head?_field_append_ne (by decide) (head?_field_append_ne (by decide) (by simp))) he
  obtain ⟨hround, -⟩ := field_append_cancel (prefixFreeOn_of_length (s := Set.univ) (by simp))
    (fun _ _ => trivial) (head?_field_append_ne (by decide) (by simp))
    (head?_field_append_ne (by decide) (by simp)) he
  exact ⟨nonDefault_injective _ (field_injective hcode htype), toUint64_eq_of_field_eq hheight,
    toUint64_eq_of_field_eq hround⟩

/-- Sign bytes of votes of one type, height and round, for different block IDs, are different. -/
theorem voteSignBytes_ne_of_blockID_ne {c c' : List UInt8} {v v' : Vote} {m m' : List UInt8}
    (h : voteSignBytes c v = some m) (h' : voteSignBytes c' v' = some m') (htype : v.type = v'.type)
    (hheight : v.height = v'.height) (hround : v.round = v'.round) (hne : v.blockID ≠ v'.blockID) : m ≠ m' := by
  intro hm
  obtain ⟨b, ts, hb, -, rfl⟩ := voteSignBytes_eq_some h
  obtain ⟨b', ts', hb', -, rfl⟩ := voteSignBytes_eq_some h'
  have he := lenPrefixed_encodeVarint_injective hm
  unfold CanonicalVote.encode at he
  simp only [htype, hheight, hround, List.append_cancel_left_eq] at he
  rw [blockID_field_eq, blockID_field_eq] at he
  obtain ⟨hfield, -⟩ := field_append_cancel prefixFreeOn_lenPrefixed_encodeVarint (canonicalMarshal_mem_short hb)
    (by simp) (by simp) he
  have hbb : b = b' := by
    have hmap := field_injective lenPrefixed_encodeVarint_injective hfield
    cases b <;> cases b'
    · rfl
    all_goals simp only [Option.map_none, Option.map_some, reduceCtorEq, Option.some.injEq] at hmap
    exact congrArg some (canonicalMarshal_inj (canonicalizeBlockID_hashesFit hb) hmap)
  exact hne (canonicalizeBlockID_inj hb (hbb ▸ hb'))

/-- No vote's sign bytes are the sign bytes of a vote extension. -/
theorem voteSignBytes_ne_voteExtensionSignBytes {c c' : List UInt8} {v v' : Vote} {m : List UInt8}
    (h : voteSignBytes c v = some m) : m ≠ voteExtensionSignBytes c' v' := by
  intro hm
  obtain ⟨b, ts, hb, -, rfl⟩ := voteSignBytes_eq_some h
  have he := lenPrefixed_encodeVarint_injective hm
  unfold CanonicalVote.encode CanonicalVoteExtension.marshal canonicalizeVoteExtension at he
  by_cases ht : v.type = .unknown
  · -- no type field: the vote has no extension field, then height and round alike, and after them the
    -- extension's chain ID would have to hold the vote's block ID and time
    have hnone : nonDefault SignedMsgType.unknown v.type = none := by simp [nonDefault, ht]
    simp only [hnone, field_none, List.nil_append] at he
    obtain ⟨-, he⟩ := field_append_cancel (o := none) prefixFreeOn_lenPrefixed_encodeVarint (by simp)
      (head?_field_append_ne (by decide) (head?_field_append_ne (by decide)
        (head?_field_append_ne (by decide) (by simp))))
      (head?_field_append_ne (by decide) (head?_field_append_ne (by decide) (head?_field_ne (by decide)))) he
    obtain ⟨-, he⟩ := field_append_cancel (prefixFreeOn_of_length (s := Set.univ) (by simp))
      (fun _ _ => trivial) (head?_field_append_ne (by decide) (head?_field_append_ne (by decide) (by simp)))
      (head?_field_append_ne (by decide) (head?_field_ne (by decide))) he
    obtain ⟨-, he⟩ := field_append_cancel (prefixFreeOn_of_length (s := Set.univ) (by simp))
      (fun _ _ => trivial) (head?_field_append_ne (by decide) (by simp)) (head?_field_ne (by decide)) he
    rw [blockID_field_eq, ← List.append_nil (field 0x22 _ (nonDefault [] c'))] at he
    obtain ⟨-, he⟩ := field_append_cancel prefixFreeOn_lenPrefixed_encodeVarint (canonicalMarshal_mem_short hb)
      (by simp) (by simp) he
    simp at he
  · -- the vote starts with its type field, whose tag no field of an extension has
    have hsome : nonDefault SignedMsgType.unknown v.type = some v.type := by simp [nonDefault, ht]
    have hhead := congrArg List.head? he
    simp only [hsome, field_some, List.cons_append, List.head?_cons] at hhead
    exact head?_field_append_ne (by decide) (head?_field_append_ne (by decide)
      (head?_field_append_ne (by decide) (head?_field_ne (by decide)))) hhead.symm

end CometBFT
