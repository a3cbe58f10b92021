import Mathlib

/-! Key paths of generalized Merkle proofs (`crypto/merkle/proof_key_path.go`), with the escaping of
    `net/url` in the mode `encodePathSegment` that `KeyPath.String` and `KeyPathToKeys` use, and the hex
    codes of `fmt` and `encoding/hex`. Strings are their bytes.

    `KeyPath.String` writes each key as `/` and a segment: the URL-escaped name, or `x:` and the name in
    upper-case hex. `KeyPathToKeys` splits on `/` and decodes a segment as hex when it starts with `x:`.
    Escaping leaves `x` and `:` as they are, so a URL-encoded key that starts with `x:` comes back
    hex-decoded; every other key path with at least one key comes back as its keys. -/

namespace CometBFT

namespace Merkle

/-- The byte of an ASCII character. -/
def byte (c : Char) : UInt8 := c.toNat.toUInt8

/-- `keyEncoding`: `KeyEncodingURL` and `KeyEncodingHex`. `String` panics on any other value. -/
inductive KeyEncoding
  | url
  | hex
  deriving Repr, DecidableEq

/-- `Key`. -/
structure Key where
  name : List UInt8
  enc : KeyEncoding
  deriving Repr, DecidableEq

/-- `KeyPath`. -/
abbrev KeyPath := List Key

/-! ### Escaping and hex -/

/-- `upperhex`. -/
def upperhex : List UInt8 := "0123456789ABCDEF".toList.map byte

/-- `shouldEscape` in the mode `encodePathSegment`: letters, digits and `-_.~` stay, and of the reserved
    characters only `/ ; , ?` are escaped. -/
def shouldEscape (c : UInt8) : Bool :=
  if (byte 'a' ≤ c ∧ c ≤ byte 'z') ∨ (byte 'A' ≤ c ∧ c ≤ byte 'Z') ∨ (byte '0' ≤ c ∧ c ≤ byte '9') then false
  else if c ∈ "-_.~".toList.map byte then false
  else if c ∈ "$&+,/:;=?@".toList.map byte then c = byte '/' ∨ c = byte ';' ∨ c = byte ',' ∨ c = byte '?'
  else true

/-- `url.PathEscape`: an escaped byte becomes `%` and its two upper-case hex digits. -/
def pathEscape (s : List UInt8) : List UInt8 :=
  s.flatMap fun c =>
    if shouldEscape c then [byte '%', upperhex.getD (c >>> 4).toNat 0, upperhex.getD (c &&& 15).toNat 0]
    else [c]

/-- `ishex`. -/
def ishex (c : UInt8) : Bool :=
  (byte '0' ≤ c ∧ c ≤ byte '9') ∨ (byte 'a' ≤ c ∧ c ≤ byte 'f') ∨ (byte 'A' ≤ c ∧ c ≤ byte 'F')

/-- `unhex`. -/
def unhex (c : UInt8) : UInt8 :=
  if byte '0' ≤ c ∧ c ≤ byte '9' then c - byte '0'
  else if byte 'a' ≤ c ∧ c ≤ byte 'f' then c - byte 'a' + 10
  else if byte 'A' ≤ c ∧ c ≤ byte 'F' then c - byte 'A' + 10
  else 0

/-- `url.PathUnescape`: `%` and two hex digits give their byte, and a `%` without them is an error; in a
    path `+` stays `+`. -/
def pathUnescape : List UInt8 → Option (List UInt8)
  | [] => some []
  | c :: rest =>
    if c = byte '%' then
      match rest with
      | h :: l :: rest => if ishex h ∧ ishex l then (((unhex h <<< 4) ||| unhex l) :: ·) <$> pathUnescape rest else none
      | _ => none
    else (c :: ·) <$> pathUnescape rest

/-- `fmt.Sprintf("%X", b)`: two upper-case hex digits per byte. -/
def hexUpper (b : List UInt8) : List UInt8 :=
  b.flatMap fun (c : UInt8) => [upperhex.getD (c >>> 4).toNat 0, upperhex.getD (c &&& 15).toNat 0]

/-- `hex.DecodeString`: pairs of hex digits of either case; an odd length or another byte is an error. -/
def hexDecodeString : List UInt8 → Option (List UInt8)
  | [] => some []
  | [_] => none
  | p :: q :: rest =>
    if ishex p ∧ ishex q then (((unhex p <<< 4) ||| unhex q) :: ·) <$> hexDecodeString rest else none

/-! ### Key paths -/

/-- What `KeyPath.String` writes after the `/` of a key. -/
def Key.segment (key : Key) : List UInt8 :=
  match key.enc with
  | .url => pathEscape key.name
  | .hex => byte 'x' :: byte ':' :: hexUpper key.name

/-- `KeyPath.String`. -/
def KeyPath.string (pth : KeyPath) : List UInt8 := pth.flatMap fun key => byte '/' :: key.segment

/-- The errors of `KeyPathToKeys`, with the part number and the part their messages print. -/
inductive KeyError
  | mustStartWithSlash
  | decodingHexPart (i : Nat) (part : List UInt8)
  | decodingUrlPart (i : Nat) (part : List UInt8)
  deriving Repr, DecidableEq

/-- The loop of `KeyPathToKeys` from part number `i`. -/
def decodeParts : List (List UInt8) → Nat → Except KeyError (List (List UInt8))
  | [], _ => .ok []
  | part :: parts, i =>
    if [byte 'x', byte ':'].isPrefixOf part then
      match hexDecodeString (part.drop 2) with
      | none => .error (.decodingHexPart i part)
      | some key => (key :: ·) <$> decodeParts parts (i + 1)
    else
      match pathUnescape part with
      | none => .error (.decodingUrlPart i part)
      | some key => (key :: ·) <$> decodeParts parts (i + 1)

/-- `KeyPathToKeys`. -/
def keyPathToKeys (path : List UInt8) : Except KeyError (List (List UInt8)) :=
  match path with
  | [] => .error .mustStartWithSlash
  | c :: rest => if c ≠ byte '/' then .error .mustStartWithSlash else decodeParts (rest.splitOn (byte '/')) 0

/-! ### The codes byte by byte -/

/-- A fact about bytes holds of every byte when it holds of the 256 numbers below `256`. -/
theorem forall_uint8 {P : UInt8 → Prop} (h : ∀ n < 256, P n.toUInt8) (c : UInt8) : P c := by
  have := h c.toNat c.toNat_lt
  rwa [show c.toNat.toUInt8 = c from UInt8.ofNat_toNat] at this

/-- The two upper-case digits of a byte are hex digits and decode to it. -/
theorem unhex_upperhex (c : UInt8) :
    ishex (upperhex.getD (c >>> 4).toNat 0) ∧ ishex (upperhex.getD (c &&& 15).toNat 0) ∧
      (unhex (upperhex.getD (c >>> 4).toNat 0) <<< 4) ||| unhex (upperhex.getD (c &&& 15).toNat 0) = c := by
  refine forall_uint8 (P := fun c => ishex (upperhex.getD (c >>> 4).toNat 0) ∧ ishex (upperhex.getD (c &&& 15).toNat 0) ∧
    (unhex (upperhex.getD (c >>> 4).toNat 0) <<< 4) ||| unhex (upperhex.getD (c &&& 15).toNat 0) = c) ?_ c
  set_option maxRecDepth 10000 in decide

theorem getD_upperhex_ne_slash (i : Nat) : upperhex.getD i 0 ≠ byte '/' := by
  rw [List.getD_eq_getElem?_getD]
  cases h : upperhex[i]? with
  | none => decide
  | some d =>
    have hd : d ∈ upperhex := List.mem_of_getElem? h
    rintro rfl
    revert hd
    decide

/-- An unescaped byte is neither `%` nor `/`. -/
theorem ne_of_shouldEscape_eq_false {c : UInt8} (h : shouldEscape c = false) : c ≠ byte '%' ∧ c ≠ byte '/' := by
  constructor <;> rintro rfl <;> revert h <;> decide

theorem pathEscape_cons_keep {c : UInt8} (hc : shouldEscape c = false) (s : List UInt8) :
    pathEscape (c :: s) = c :: pathEscape s := by
  simp [pathEscape, hc]

theorem pathEscape_cons_escape {c : UInt8} (hc : shouldEscape c = true) (s : List UInt8) :
    pathEscape (c :: s) =
      byte '%' :: upperhex.getD (c >>> 4).toNat 0 :: upperhex.getD (c &&& 15).toNat 0 :: pathEscape s := by
  simp [pathEscape, hc]

theorem hexUpper_cons (c : UInt8) (s : List UInt8) : hexUpper (c :: s) = hexUpper [c] ++ hexUpper s := by
  simp [hexUpper]

theorem pathUnescape_cons {c : UInt8} (hc : c ≠ byte '%') (rest : List UInt8) :
    pathUnescape (c :: rest) = (c :: ·) <$> pathUnescape rest := by
  rw [pathUnescape.eq_def]
  dsimp only
  rw [if_neg hc]

theorem pathUnescape_percent (h l : UInt8) (rest : List UInt8) :
    pathUnescape (byte '%' :: h :: l :: rest) =
      if ishex h ∧ ishex l then (((unhex h <<< 4) ||| unhex l) :: ·) <$> pathUnescape rest else none := by
  rw [pathUnescape, if_pos rfl]

theorem pathUnescape_pathEscape (s : List UInt8) : pathUnescape (pathEscape s) = some s := by
  induction s with
  | nil => rfl
  | cons c s ih =>
    cases hesc : shouldEscape c with
    | true =>
      obtain ⟨hh, hl, hc⟩ := unhex_upperhex c
      rw [pathEscape_cons_escape hesc, pathUnescape_percent, if_pos ⟨hh, hl⟩, ih, hc]
      rfl
    | false =>
      rw [pathEscape_cons_keep hesc, pathUnescape_cons (ne_of_shouldEscape_eq_false hesc).1, ih]
      rfl

theorem hexDecodeString_hexUpper (s : List UInt8) : hexDecodeString (hexUpper s) = some s := by
  induction s with
  | nil => rfl
  | cons c s ih =>
    obtain ⟨hh, hl, hc⟩ := unhex_upperhex c
    have hcons : hexUpper (c :: s) = upperhex.getD (c >>> 4).toNat 0 :: upperhex.getD (c &&& 15).toNat 0 :: hexUpper s := by
      simp [hexUpper]
    rw [hcons, hexDecodeString, if_pos ⟨hh, hl⟩, ih, hc]
    rfl

theorem slash_not_mem_pathEscape (s : List UInt8) : byte '/' ∉ pathEscape s := by
  induction s with
  | nil => simp [pathEscape]
  | cons c s ih =>
    cases hesc : shouldEscape c with
    | true =>
      rw [pathEscape_cons_escape hesc]
      simp only [List.mem_cons, not_or]
      exact ⟨by decide, (getD_upperhex_ne_slash _).symm, (getD_upperhex_ne_slash _).symm, ih⟩
    | false =>
      rw [pathEscape_cons_keep hesc, List.mem_cons, not_or]
      exact ⟨(ne_of_shouldEscape_eq_false hesc).2.symm, ih⟩

theorem slash_not_mem_hexUpper (s : List UInt8) : byte '/' ∉ hexUpper s := by
  induction s with
  | nil => simp [hexUpper]
  | cons c s ih =>
    rw [hexUpper_cons]
    simp only [hexUpper, List.flatMap_cons, List.flatMap_nil, List.append_nil, List.cons_append, List.nil_append,
      List.mem_cons, not_or] at ih ⊢
    exact ⟨(getD_upperhex_ne_slash _).symm, (getD_upperhex_ne_slash _).symm, ih⟩

theorem slash_not_mem_segment (key : Key) : byte '/' ∉ key.segment := by
  cases key with
  | mk name enc =>
    cases enc with
    | url => exact slash_not_mem_pathEscape name
    | hex =>
      have := slash_not_mem_hexUpper name
      simp only [Key.segment, List.mem_cons, not_or]
      exact ⟨by decide, by decide, this⟩

/-- Escaping keeps `x` and `:`, and an escaped byte starts with `%`: an escaped name starts with `x:`
    exactly when the name does. -/
theorem isPrefixOf_pathEscape {name : List UInt8} (h : [byte 'x', byte ':'].isPrefixOf name = false) :
    [byte 'x', byte ':'].isPrefixOf (pathEscape name) = false := by
  match name with
  | [] => rfl
  | c :: rest =>
    cases hc : shouldEscape c with
    | true =>
      -- an escaped first byte writes `%`
      rw [pathEscape_cons_escape hc]
      simp only [List.isPrefixOf, Bool.and_eq_false_iff]
      exact .inl (by decide)
    | false =>
      rw [pathEscape_cons_keep hc]
      match rest with
      | [] => simp [List.isPrefixOf, pathEscape]
      | d :: rest' =>
        cases hd : shouldEscape d with
        | true =>
          rw [pathEscape_cons_escape hd]
          simp only [List.isPrefixOf, Bool.and_eq_false_iff]
          exact .inr (.inl (by decide))
        | false =>
          rw [pathEscape_cons_keep hd]
          simpa [List.isPrefixOf] using h

/-! ### The round trip -/

theorem KeyPath.string_eq {kp : KeyPath} (hne : kp ≠ []) :
    kp.string = byte '/' :: [byte '/'].intercalate (kp.map Key.segment) := by
  induction kp with
  | nil => exact absurd rfl hne
  | cons key kp ih =>
    cases kp with
    | nil => simp [KeyPath.string]
    | cons key' kp =>
      rw [KeyPath.string, List.flatMap_cons, ← KeyPath.string, ih (by simp)]
      simp only [List.map_cons, List.intercalate_cons_cons, List.cons_append, List.append_assoc, List.nil_append]

/-- Segments decode to their names, unless a URL-encoded name starts with `x:`. -/
theorem decodeParts_segment {ks : List Key}
    (hx : ∀ k ∈ ks, k.enc = .url → [byte 'x', byte ':'].isPrefixOf k.name = false) (i : Nat) :
    decodeParts (ks.map Key.segment) i = .ok (ks.map Key.name) := by
  induction ks generalizing i with
  | nil => rfl
  | cons k ks ih =>
    have ih' := ih (fun k' hk' => hx k' (List.mem_cons_of_mem _ hk')) (i + 1)
    obtain ⟨name, enc⟩ := k
    cases enc with
    | url =>
      have hpre := isPrefixOf_pathEscape (hx _ List.mem_cons_self rfl)
      simp only [List.map_cons, Key.segment, decodeParts, hpre, Bool.false_eq_true, if_false,
        pathUnescape_pathEscape, ih']
      rfl
    | hex =>
      simp only [List.map_cons, Key.segment, decodeParts, List.isPrefixOf, byte, beq_self_eq_true, Bool.and_self,
        if_true, List.drop_succ_cons, List.drop_zero, hexDecodeString_hexUpper, ih']
      rfl

/-- A key path with at least one key, none of its URL-encoded keys starting with `x:`, is read back as
    its keys. -/
theorem keyPathToKeys_string {kp : KeyPath} (hne : kp ≠ [])
    (hx : ∀ k ∈ kp, k.enc = .url → [byte 'x', byte ':'].isPrefixOf k.name = false) :
    keyPathToKeys kp.string = .ok (kp.map Key.name) := by
  rw [KeyPath.string_eq hne, keyPathToKeys, if_neg (by simp),
    List.splitOn_intercalate _ (by simpa using fun k _ => slash_not_mem_segment k) (by simpa using hne)]
  exact decodeParts_segment hx 0

/-- A URL-encoded key that needs escaping and a hex-encoded key are read back. -/
theorem keyPathToKeys_string_urlHex :
    keyPathToKeys (KeyPath.string [⟨[byte 'a', byte '/'], .url⟩, ⟨[255], .hex⟩]) = .ok [[byte 'a', byte '/'], [255]] :=
  keyPathToKeys_string (by simp) (by decide)

/-- The URL-encoded key `x:` is written `/x:` and read back hex-decoded, as the empty key. -/
theorem keyPathToKeys_string_url_x_colon :
    keyPathToKeys (KeyPath.string [⟨[byte 'x', byte ':'], .url⟩]) = .ok [[]] ∧
      keyPathToKeys (KeyPath.string [⟨[byte 'x', byte ':'], .url⟩]) ≠ .ok [[byte 'x', byte ':']] := by
  decide

end Merkle

end CometBFT
