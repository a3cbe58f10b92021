import CometBFT.Types.BlockID

/-! The flood mempool (`mempool/clist_mempool.go`, `mempool/cache.go`): the list of transactions with the
    map from keys to list elements and the byte counter, the LRU cache of keys, the recheck cursor, and the
    entry points `CheckTx`, the callback on the application's answers, `Update`, `RemoveTxByKey`, `Flush`
    and `ReapMaxBytesMaxGas`.

    A list element is its identity with its value; `txsMap` holds the element, as the Go map holds a
    pointer to it. A key is `tx.Key()`, the SHA-256 of the transaction, which the model takes as a
    parameter `key`. Go's `int` is 64 bits wide, so the configuration's fields are `Int64`; the byte
    counter is an exact integer, which the invariant keeps within `MaxTxsBytes`. The recheck cursor is the
    part of the list from the cursor to `recheckEnd`, as `recheckTxs` saw the list. -/

namespace CometBFT

namespace Mempool

/-- `types.Tx`. -/
abbrev Tx := List UInt8

/-- `types.TxKey`. -/
abbrev TxKey := List UInt8

/-- The fields of `abci.CheckTxResponse` that the mempool reads. -/
structure CheckTxResponse where
  code : UInt32
  gasWanted : Int64
  deriving Repr, DecidableEq

/-- `abci.CodeTypeOK`. -/
def codeTypeOK : UInt32 := 0

/-- `mempoolTx`. -/
structure MempoolTx where
  height : Int64
  gasWanted : Int64
  tx : Tx
  deriving Repr, DecidableEq

/-- The fields of `config.MempoolConfig` that the mempool reads. -/
structure MempoolConfig where
  recheck : Bool
  size : Int64
  maxTxsBytes : Int64
  maxTxBytes : Int64
  cacheSize : Int64
  keepInvalidTxsInCache : Bool
  deriving Repr, DecidableEq

/-- `DefaultMempoolConfig`. -/
def defaultMempoolConfig : MempoolConfig where
  recheck := true
  size := 5000
  maxTxsBytes := 1024 * 1024 * 1024
  maxTxBytes := 1024 * 1024
  cacheSize := 10000
  keepInvalidTxsInCache := false

/-- `cmterrors.ErrNegativeField`. -/
structure ErrNegativeField where
  field : String
  deriving Repr, DecidableEq

/-- One check of `ValidateBasic`: the field named `field` is not negative. -/
def checkNonNegative (field : String) (v : Int64) : Except ErrNegativeField Unit :=
  if v < 0 then .error ⟨field⟩ else .ok ()

/-- `MempoolConfig.ValidateBasic` on the fields above; the mempool type and the gossip limits are not
    modelled. -/
def MempoolConfig.validateBasic (cfg : MempoolConfig) : Except ErrNegativeField Unit := do
  checkNonNegative "size" cfg.size
  checkNonNegative "max_txs_bytes" cfg.maxTxsBytes
  checkNonNegative "cache_size" cfg.cacheSize
  checkNonNegative "max_tx_bytes" cfg.maxTxBytes

theorem checkNonNegative_eq_ok {field : String} {v : Int64} : checkNonNegative field v = .ok () ↔ 0 ≤ v.toInt := by
  unfold checkNonNegative
  split_ifs with h
  · rw [Int64.lt_iff_toInt_lt, Int64.toInt_zero] at h
    constructor
    · intro h'
      cases h'
    · intro h'
      exact absurd h (not_lt.mpr h')
  · rw [Int64.lt_iff_toInt_lt, Int64.toInt_zero] at h
    exact ⟨fun _ => not_lt.mp h, fun _ => rfl⟩

/-- `ValidateBasic` passes exactly when the four fields are not negative. -/
theorem validateBasic_eq_ok {cfg : MempoolConfig} :
    cfg.validateBasic = .ok () ↔
      0 ≤ cfg.size.toInt ∧ 0 ≤ cfg.maxTxsBytes.toInt ∧ 0 ≤ cfg.cacheSize.toInt ∧ 0 ≤ cfg.maxTxBytes.toInt := by
  constructor
  · intro h
    obtain ⟨⟨⟩, h₁, h⟩ := except_bind_eq_ok.mp h
    obtain ⟨⟨⟩, h₂, h⟩ := except_bind_eq_ok.mp h
    obtain ⟨⟨⟩, h₃, h₄⟩ := except_bind_eq_ok.mp h
    exact ⟨checkNonNegative_eq_ok.mp h₁, checkNonNegative_eq_ok.mp h₂, checkNonNegative_eq_ok.mp h₃,
      checkNonNegative_eq_ok.mp h₄⟩
  · rintro ⟨h₁, h₂, h₃, h₄⟩
    simp only [MempoolConfig.validateBasic, checkNonNegative_eq_ok.mpr h₁, checkNonNegative_eq_ok.mpr h₂,
      checkNonNegative_eq_ok.mpr h₃, checkNonNegative_eq_ok.mpr h₄, except_ok_bind]

/-- An error of `ValidateBasic` names a field that is negative. -/
theorem validateBasic_eq_error {cfg : MempoolConfig} {e : ErrNegativeField} (h : cfg.validateBasic = .error e) :
    (e.field = "size" ∧ cfg.size < 0) ∨ (e.field = "max_txs_bytes" ∧ cfg.maxTxsBytes < 0) ∨
      (e.field = "cache_size" ∧ cfg.cacheSize < 0) ∨ (e.field = "max_tx_bytes" ∧ cfg.maxTxBytes < 0) := by
  simp only [MempoolConfig.validateBasic, checkNonNegative] at h
  split_ifs at h with h₁ h₂ h₃ h₄ <;> cases h <;> simp_all

theorem defaultMempoolConfig_validateBasic : defaultMempoolConfig.validateBasic = .ok () := rfl

/-- `TxCache`: an `LRUTxCache` of at most `size` keys, the least recently pushed first, or a
    `NopTxCache`. The LRU cache's map holds the keys of its list. -/
inductive TxCache
  | lru (size : Int64) (list : List TxKey)
  | nop
  deriving Repr, DecidableEq

namespace TxCache

/-- `Reset`. -/
def reset : TxCache → TxCache
  | lru size _ => lru size []
  | nop => nop

/-- `Push`: a key already held moves to the back and the push fails; a new key drops the front key when
    the cache is full. -/
def push (k : TxKey) : TxCache → TxCache × Bool
  | lru size list =>
    if k ∈ list then (lru size (list.erase k ++ [k]), false)
    else
      let list := if size.toInt ≤ list.length then list.drop 1 else list
      (lru size (list ++ [k]), true)
  | nop => (nop, true)

/-- `Remove`. -/
def remove (k : TxKey) : TxCache → TxCache
  | lru size list => lru size (list.erase k)
  | nop => nop

end TxCache

/-- The mempool's errors, with their fields. -/
inductive MempoolError
  | mempoolIsFull (numTxs : Int) (maxTxs : Int64) (txsBytes : Int) (maxTxsBytes : Int64)
  | txTooLarge (max : Int64) (actual : Int)
  | preCheck
  | appConnMempool
  | txInCache
  | checkTxAsync
  | txNotFound
  deriving Repr, DecidableEq

/-- A `clist` element: its identity and its value. -/
abbrev CElement := Nat × MempoolTx

/-- The state of a `CListMempool` that its entry points read and write. `nextElement` is the identity of
    the next element `PushBack` makes. -/
structure CListMempool where
  height : Int64
  txsBytes : Int
  txs : List CElement
  txsMap : TxKey → Option CElement
  cache : TxCache
  recheckCursor : Option (List CElement)
  preCheck : Option (Tx → Bool)
  postCheck : Option (Tx → CheckTxResponse → Bool)
  nextElement : Nat

/-- `abci.CheckTxType`. -/
inductive CheckTxType
  | check
  | recheck
  deriving Repr, DecidableEq

/-- `uint64` of a signed integer. -/
def uint64 (x : Int) : Int := x % 2 ^ 64

namespace CListMempool

variable (cfg : MempoolConfig) (key : Tx → TxKey)

/-- `NewCListMempool`, with the checks its options set. -/
def new (height : Int64) (preCheck : Option (Tx → Bool)) (postCheck : Option (Tx → CheckTxResponse → Bool)) :
    CListMempool where
  height := height
  txsBytes := 0
  txs := []
  txsMap := fun _ => none
  cache := if cfg.cacheSize > 0 then .lru cfg.cacheSize [] else .nop
  recheckCursor := none
  preCheck := preCheck
  postCheck := postCheck
  nextElement := 0

/-- `Size`. -/
def size (mem : CListMempool) : Int := mem.txs.length

/-- `InMempool`. -/
def inMempool (mem : CListMempool) (txKey : TxKey) : Bool := (mem.txsMap txKey).isSome

/-- `isFull`: the sizes are compared as `uint64`. -/
def isFull (mem : CListMempool) (txSize : Int) : Except MempoolError Unit :=
  if mem.size ≥ cfg.size.toInt ∨ uint64 (uint64 txSize + uint64 mem.txsBytes) > uint64 cfg.maxTxsBytes.toInt then
    .error (.mempoolIsFull mem.size cfg.size mem.txsBytes cfg.maxTxsBytes)
  else .ok ()

/-- `addToCache`. -/
def addToCache (mem : CListMempool) (tx : Tx) : CListMempool × Bool :=
  match mem.cache.push (key tx) with
  | (cache, added) => ({ mem with cache }, added)

/-- `forceRemoveFromCache`. -/
def forceRemoveFromCache (mem : CListMempool) (tx : Tx) : CListMempool :=
  { mem with cache := mem.cache.remove (key tx) }

/-- `tryRemoveFromCache`. -/
def tryRemoveFromCache (mem : CListMempool) (tx : Tx) : CListMempool :=
  if !cfg.keepInvalidTxsInCache then forceRemoveFromCache key mem tx else mem

/-- The `preCheck` of the mempool passes, or there is none. -/
def preCheckOk (mem : CListMempool) (tx : Tx) : Bool :=
  match mem.preCheck with
  | none => true
  | some f => f tx

/-- The `postCheck` of the mempool passes, or there is none. -/
def postCheckOk (mem : CListMempool) (tx : Tx) (res : CheckTxResponse) : Bool :=
  match mem.postCheck with
  | none => true
  | some f => f tx res

/-- `addTx`: a transaction whose key is not in the map goes to the back of the list. -/
def addTx (mem : CListMempool) (memTx : MempoolTx) : CListMempool × Bool :=
  if mem.inMempool (key memTx.tx) then (mem, false)
  else
    let e : CElement := (mem.nextElement, memTx)
    ({ mem with
        txs := mem.txs ++ [e]
        txsMap := Function.update mem.txsMap (key memTx.tx) (some e)
        txsBytes := mem.txsBytes + memTx.tx.length
        nextElement := mem.nextElement + 1 }, true)

/-- `RemoveTxByKey`: the element the map holds leaves the list and the map, and its bytes the counter. -/
def removeTxByKey (mem : CListMempool) (txKey : TxKey) : CListMempool × Except MempoolError Unit :=
  match mem.txsMap txKey with
  | none => (mem, .error .txNotFound)
  | some elem =>
    ({ mem with
        txs := mem.txs.erase elem
        txsMap := Function.update mem.txsMap txKey none
        txsBytes := mem.txsBytes - elem.2.tx.length }, .ok ())

/-- `CheckTx` up to the request to the application. The cache takes the key before the request is sent,
    so it keeps it when the push fails or the request does. -/
def checkTx (mem : CListMempool) (tx : Tx) (appConnErr checkTxAsyncErr : Bool) :
    CListMempool × Except MempoolError Unit :=
  match isFull cfg mem tx.length with
  | .error e => (mem, .error e)
  | .ok () =>
    if (tx.length : Int) > cfg.maxTxBytes.toInt then (mem, .error (.txTooLarge cfg.maxTxBytes tx.length))
    else if !mem.preCheckOk tx then (mem, .error .preCheck)
    else if appConnErr then (mem, .error .appConnMempool)
    else
      match addToCache key mem tx with
      | (mem, added) =>
        if !added then (mem, .error .txInCache)
        else if checkTxAsyncErr then (mem, .error .checkTxAsync)
        else (mem, .ok ())

/-- `resCbFirstTime`. -/
def resCbFirstTime (mem : CListMempool) (tx : Tx) (res : CheckTxResponse) : CListMempool :=
  if res.code ≠ codeTypeOK ∨ !mem.postCheckOk tx res then tryRemoveFromCache cfg key mem tx
  else
    match isFull cfg mem tx.length with
    | .error _ => forceRemoveFromCache key mem tx
    | .ok () => (addTx key mem ⟨mem.height, res.gasWanted, tx⟩).1

/-- The walk of `resCbRecheck` from the cursor to the first element holding `tx`: its value and the
    elements after it up to `recheckEnd`. Passing `recheckEnd` without a match gives `none`. -/
def findRecheck (tx : Tx) : List CElement → Option (MempoolTx × List CElement)
  | [] => none
  | e :: rest => if e.2.tx = tx then some (e.2, rest) else findRecheck tx rest

/-- `resCbRecheck` with the cursor at `cursor`: a transaction the application now rejects leaves the
    mempool by its key, and the cursor moves past the element it matched. -/
def resCbRecheck (mem : CListMempool) (cursor : List CElement) (tx : Tx) (res : CheckTxResponse) :
    CListMempool :=
  match findRecheck tx cursor with
  | none => { mem with recheckCursor := none }
  | some (memTx, rest) =>
    let mem :=
      if res.code ≠ codeTypeOK ∨ !mem.postCheckOk tx res then
        tryRemoveFromCache cfg key (removeTxByKey mem (key memTx.tx)).1 tx
      else mem
    { mem with recheckCursor := if rest = [] then none else some rest }

/-- `globalCb` on an answer to `CheckTx`. A first answer during a recheck is the panic, `none`; a recheck
    answer when no recheck is running is dropped. -/
def globalCb (mem : CListMempool) (type : CheckTxType) (tx : Tx) (res : CheckTxResponse) :
    Option CListMempool :=
  match type, mem.recheckCursor with
  | .check, some _ => none
  | .check, none => some (resCbFirstTime cfg key mem tx res)
  | .recheck, none => some mem
  | .recheck, some cursor => some (resCbRecheck cfg key mem cursor tx res)

/-- `recheckTxs`: the cursor runs from the front of the list to its back. -/
def recheckTxs (mem : CListMempool) : CListMempool := { mem with recheckCursor := some mem.txs }

/-- The body of `Update`'s loop on a committed transaction and its result code. -/
def updateTx (mem : CListMempool) (txc : Tx × UInt32) : CListMempool :=
  let mem := if txc.2 = codeTypeOK then (addToCache key mem txc.1).1 else tryRemoveFromCache cfg key mem txc.1
  (removeTxByKey mem (key txc.1)).1

/-- `Update`, with the result codes of the block's transactions. Fewer results than transactions is the
    index panic, `none`. -/
def update (mem : CListMempool) (height : Int64) (txs : List Tx) (txResults : List UInt32)
    (preCheck : Option (Tx → Bool)) (postCheck : Option (Tx → CheckTxResponse → Bool)) : Option CListMempool :=
  if txResults.length < txs.length then none
  else
    let mem := { mem with height, preCheck := preCheck.or mem.preCheck, postCheck := postCheck.or mem.postCheck }
    let mem := (txs.zip txResults).foldl (updateTx cfg key) mem
    some (if mem.size > 0 ∧ cfg.recheck then recheckTxs mem else mem)

/-- `Flush`. -/
def flush (mem : CListMempool) : CListMempool :=
  { mem with txsBytes := 0, cache := mem.cache.reset, txs := [], txsMap := fun _ => none }

/-! ### What the cache's updates leave alone -/

section Frame

variable {cfg key} (mem : CListMempool) (tx : Tx)

@[simp] theorem addToCache_fst : (addToCache key mem tx).1 = { mem with cache := (mem.cache.push (key tx)).1 } :=
  rfl

@[simp] theorem tryRemoveFromCache_txs : (tryRemoveFromCache cfg key mem tx).txs = mem.txs := by
  unfold tryRemoveFromCache; split <;> rfl

@[simp] theorem tryRemoveFromCache_txsMap : (tryRemoveFromCache cfg key mem tx).txsMap = mem.txsMap := by
  unfold tryRemoveFromCache; split <;> rfl

@[simp] theorem tryRemoveFromCache_txsBytes : (tryRemoveFromCache cfg key mem tx).txsBytes = mem.txsBytes := by
  unfold tryRemoveFromCache; split <;> rfl

end Frame

end CListMempool

/-! ### Reaping -/

/-- `sovTypes`: the length of `x` as a varint, which Go computes from the bit length of `x`. -/
def sovTypes (x : Nat) : Nat := (encodeVarint 10 x).length

/-- The size of one transaction in a `Data` message: the field's tag, its length and its bytes. -/
def protoSize (tx : Tx) : Nat := 1 + tx.length + sovTypes tx.length

/-- `ComputeProtoSizeForTxs`: `Data.Size()` for a `Data` that holds `txs`. -/
def computeProtoSizeForTxs (txs : List Tx) : Int64 := Int64.ofNat (txs.map protoSize).sum

/-- The loop of `ReapMaxBytesMaxGas` from the element `memTx`, with the size and gas of the elements
    before it. A limit of `-1` is no limit. -/
def reapLoop (maxBytes maxGas : Int64) : List MempoolTx → Int64 → Int64 → List Tx
  | [], _, _ => []
  | memTx :: rest, runningSize, totalGas =>
    let dataSize := computeProtoSizeForTxs [memTx.tx]
    if maxBytes > -1 ∧ runningSize + dataSize > maxBytes then []
    else
      let newTotalGas := totalGas + memTx.gasWanted
      if maxGas > -1 ∧ newTotalGas > maxGas then []
      else memTx.tx :: reapLoop maxBytes maxGas rest (runningSize + dataSize) newTotalGas

/-- `ReapMaxBytesMaxGas`. -/
def CListMempool.reapMaxBytesMaxGas (mem : CListMempool) (maxBytes maxGas : Int64) : List Tx :=
  reapLoop maxBytes maxGas (mem.txs.map (·.2)) 0 0

/-- The loop of `ReapMaxTxs`: it appends the next transaction while the result holds at most `max` of
    them. -/
def reapMaxTxsLoop (max : Int) : List MempoolTx → List Tx → List Tx
  | [], txs => txs
  | memTx :: rest, txs =>
    if (txs.length : Int) ≤ max then reapMaxTxsLoop max rest (txs ++ [memTx.tx]) else txs

/-- `ReapMaxTxs`; a negative `max` stands for the length of the list. -/
def CListMempool.reapMaxTxs (mem : CListMempool) (max : Int64) : List Tx :=
  let max := if max < 0 then (mem.txs.length : Int) else max.toInt
  reapMaxTxsLoop max (mem.txs.map (·.2)) []

/-! ### Runs -/

section Runs

variable (cfg : MempoolConfig) (key : Tx → TxKey)

open CListMempool in
/-- What the mempool does on one call: `CheckTx` that fails; `CheckTx` whose request goes out, followed by
    the application's answer; `Update`; an answer to a recheck; `RemoveTxByKey`; `Flush`. The application's
    answers and the connection's errors are arbitrary. -/
inductive Step : CListMempool → CListMempool → Prop
  | checkTxError {mem mem' : CListMempool} {tx : Tx} {appConnErr checkTxAsyncErr : Bool} {e : MempoolError} :
      checkTx cfg key mem tx appConnErr checkTxAsyncErr = (mem', .error e) → Step mem mem'
  | checkTx {mem mem' mem'' : CListMempool} {tx : Tx} {appConnErr checkTxAsyncErr : Bool}
      {res : CheckTxResponse} :
      checkTx cfg key mem tx appConnErr checkTxAsyncErr = (mem', .ok ()) →
        globalCb cfg key mem' .check tx res = some mem'' → Step mem mem''
  | update {mem mem' : CListMempool} {height : Int64} {txs : List Tx} {txResults : List UInt32}
      {preCheck : Option (Tx → Bool)} {postCheck : Option (Tx → CheckTxResponse → Bool)} :
      update cfg key mem height txs txResults preCheck postCheck = some mem' → Step mem mem'
  | recheck {mem mem' : CListMempool} {tx : Tx} {res : CheckTxResponse} :
      globalCb cfg key mem .recheck tx res = some mem' → Step mem mem'
  | removeTxByKey {mem : CListMempool} (txKey : TxKey) : Step mem (removeTxByKey mem txKey).1
  | flush {mem : CListMempool} : Step mem (flush mem)

/-- The mempools reached from `NewCListMempool` by any calls. -/
inductive Reachable : CListMempool → Prop
  | new (height : Int64) (preCheck : Option (Tx → Bool)) (postCheck : Option (Tx → CheckTxResponse → Bool)) :
      Reachable (CListMempool.new cfg height preCheck postCheck)
  | step {mem mem' : CListMempool} : Reachable mem → Step cfg key mem mem' → Reachable mem'

end Runs

end Mempool

end CometBFT
