import CometBFT.Types.Validator

/-! Block IDs (`types/block.go`, `types/part_set.go`) and the key under which vote sets file votes.

    `BlockID.Key` is the block hash followed by the protobuf encoding of the part set header, as the
    generated `MarshalToSizedBuffer` writes it: a field is left out when it has its zero value. Nothing
    marks where the hash ends, so two different block IDs can share a key. -/

namespace CometBFT

/-- `tmhash.Size`. -/
def tmhashSize : Nat := 32

/-- The error of `ValidateHash`: "expected size to be 32 bytes, got `got` bytes". -/
structure HashSizeError where
  got : Nat
  deriving Repr, DecidableEq

/-- `ValidateHash`: a hash is empty or `tmhash.Size` bytes long. -/
def validateHash (h : List UInt8) : Except HashSizeError Unit :=
  if h.length > 0 ∧ h.length ≠ tmhashSize then .error ⟨h.length⟩ else .ok ()

/-- `PartSetHeader`. -/
structure PartSetHeader where
  total : UInt32
  hash : List UInt8
  deriving Repr, DecidableEq

/-- `BlockID`. -/
structure BlockID where
  hash : List UInt8
  partSetHeader : PartSetHeader
  deriving Repr, DecidableEq

/-- The errors of `BlockID.ValidateBasic`: "wrong Hash", and "wrong PartSetHeader: wrong Hash: …". -/
inductive BlockIDError
  | wrongHash
  | wrongPartSetHeader (e : HashSizeError)
  deriving Repr, DecidableEq

/-- `encodeVarintTypes`: groups of seven bits from the lowest, the high bit set on all but the last. Ten
    groups hold every `uint64`. -/
def encodeVarint : Nat → Nat → List UInt8
  | 0, _ => []
  | fuel + 1, v => if v < 128 then [v.toUInt8] else (v % 128 + 128).toUInt8 :: encodeVarint fuel (v / 128)

namespace PartSetHeader

/-- `IsZero`. -/
def isZero (psh : PartSetHeader) : Bool := psh.total = 0 ∧ psh.hash.length = 0

/-- `ValidateBasic`. -/
def validateBasic (psh : PartSetHeader) : Except HashSizeError Unit := validateHash psh.hash

/-- `Marshal` of the protobuf `PartSetHeader`: field 1 `Total`, field 2 `Hash`, each left out when zero. -/
def marshal (psh : PartSetHeader) : List UInt8 :=
  (if psh.total ≠ 0 then 0x08 :: encodeVarint 10 psh.total.toNat else []) ++
    (if psh.hash ≠ [] then 0x12 :: encodeVarint 10 psh.hash.length ++ psh.hash else [])

end PartSetHeader

namespace BlockID

/-- `Key`: `fmt.Sprint` of the hash and the encoded header, two strings, so with nothing between them. -/
def key (blockID : BlockID) : List UInt8 := blockID.hash ++ blockID.partSetHeader.marshal

/-- `ValidateBasic`. -/
def validateBasic (blockID : BlockID) : Except BlockIDError Unit :=
  match validateHash blockID.hash with
  | .error _ => .error .wrongHash
  | .ok () =>
    match blockID.partSetHeader.validateBasic with
    | .error e => .error (.wrongPartSetHeader e)
    | .ok () => .ok ()

/-- `IsNil`. -/
def isNil (blockID : BlockID) : Bool := blockID.hash.length = 0 ∧ blockID.partSetHeader.isZero

/-- `IsComplete`. -/
def isComplete (blockID : BlockID) : Bool :=
  blockID.hash.length = tmhashSize ∧ blockID.partSetHeader.total > 0 ∧ blockID.partSetHeader.hash.length = tmhashSize

end BlockID

/-! ### The wire form

    The protobuf `PartSetHeader` and `BlockID` have the fields of the types above, so they share them. -/

/-- The errors of the decoding of a block ID: its header's hash, or its own `ValidateBasic`. -/
inductive FromProtoError
  | hashSize (e : HashSizeError)
  | blockID (e : BlockIDError)
  deriving Repr, DecidableEq

/-- `PartSetHeaderFromProto` of a message's (never nil) header: a copy, with its `ValidateBasic`. -/
def partSetHeaderFromProto (ppsh : PartSetHeader) : Except HashSizeError PartSetHeader :=
  match ppsh.validateBasic with
  | .error e => .error e
  | .ok () => .ok ppsh

/-- `BlockIDFromProto`: the header first, then the block ID's `ValidateBasic`. -/
def blockIDFromProto (bID : BlockID) : Except FromProtoError BlockID :=
  match partSetHeaderFromProto bID.partSetHeader with
  | .error e => .error (.hashSize e)
  | .ok ph =>
    let blockID : BlockID := { hash := bID.hash, partSetHeader := ph }
    match blockID.validateBasic with
    | .error e => .error (.blockID e)
    | .ok () => .ok blockID

end CometBFT
