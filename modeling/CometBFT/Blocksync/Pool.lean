import CometBFT.Lib.AList

/-! Block sync pool (`internal/blocksync/pool.go`). The pool keeps one requester for each height it is
    fetching, from `height` up, and the heights its peers report. Each requester's `requestRoutine` picks a
    peer, waits for the block, and starts again after a retry timeout or a redo for its peer.

    Every operation is one atomic step here, as under the pool's mutex; a run is any sequence of them. Peer
    IDs are never empty (p2p checks them), so the empty ID `""` is `none`. Timers, receive monitors and the
    request and error channels do nothing the bookkeeping reads, and are left out. -/

namespace CometBFT.Blocksync

/-- What the pool reads of a `types.Block`: its height. The rest of the block, which it only stores and
    hands back, stands as `data`. -/
structure Block where
  height : Int
  data : List UInt8
  deriving DecidableEq, Repr

/-- What the pool reads of a `types.ExtendedCommit`: its height. -/
structure ExtendedCommit where
  height : Int
  data : List UInt8
  deriving DecidableEq, Repr

def maxPendingRequestsPerPeer : Int := 20

/-- `bpPeer`. -/
structure BPPeer where
  didTimeout : Bool
  numPending : Int
  height : Int
  base : Int
  deriving DecidableEq, Repr

def newBPPeer (base height : Int) : BPPeer := ⟨false, 0, height, base⟩

def BPPeer.incrPending (peer : BPPeer) : BPPeer := { peer with numPending := peer.numPending + 1 }

def BPPeer.decrPending (peer : BPPeer) : BPPeer := { peer with numPending := peer.numPending - 1 }

/-- `bpRequester`. `redoCh`, a channel of capacity one, is the peer ID it holds. The requester's routine
    is in its `PICK_PEER_LOOP` when `peerID` is empty and in its `WAIT_LOOP` otherwise. -/
structure BPRequester (ID : Type) where
  height : Int
  peerID : Option ID
  block : Option Block
  extCommit : Option ExtendedCommit
  redoCh : Option ID
  deriving DecidableEq, Repr

/-- `BlockPool`. The maps are association lists; `len(requesters)` is the number of their keys. -/
structure BlockPool (ID : Type) where
  requesters : AList fun _ : Int => BPRequester ID
  height : Int
  peers : AList fun _ : ID => BPPeer
  maxPeerHeight : Int
  numPending : Int

variable {ID : Type} [DecidableEq ID]

def newBPRequester (height : Int) : BPRequester ID := ⟨height, none, none, none, none⟩

/-- `setBlock`: the block is taken only from the requester's own peer, and only once. -/
def BPRequester.setBlock (bpr : BPRequester ID) (block : Block) (extCommit : Option ExtendedCommit)
    (peerID : ID) : Option (BPRequester ID) :=
  if bpr.block.isSome ∨ bpr.peerID ≠ some peerID then none
  else some { bpr with block := some block, extCommit := extCommit }

/-- `reset`, but for the pool's `numPending`, which `BlockPool.reset` counts. -/
def BPRequester.reset (bpr : BPRequester ID) : BPRequester ID :=
  { bpr with peerID := none, block := none, extCommit := none }

/-- `redo`: the send on `redoCh` does nothing when the channel is full. -/
def BPRequester.redo (bpr : BPRequester ID) (peerID : ID) : BPRequester ID :=
  if bpr.redoCh.isSome then bpr else { bpr with redoCh := some peerID }

/-- `NewBlockPool`. -/
def newBlockPool (start : Int) : BlockPool ID := ⟨∅, start, ∅, 0, 0⟩

/-- The errors `AddBlock` returns. -/
inductive AddBlockError (ID : Type)
  | heightsMismatch (blockHeight commitHeight : Int)
  | unexpectedBlock (peerID : ID) (curHeight blockHeight : Int)
  | requesterMismatch (peerID : ID) (requester : Option ID) (blockHeight : Int)
  deriving DecidableEq, Repr

namespace BlockPool

def requestersLen (pool : BlockPool ID) : Int := pool.requesters.keys.length

/-- `PeekTwoBlocks`: the blocks at `height` and `height + 1`, and the first one's extended commit. -/
def peekTwoBlocks (pool : BlockPool ID) : Option Block × Option Block × Option ExtendedCommit :=
  let first := pool.requesters.lookup pool.height
  let second := pool.requesters.lookup (pool.height + 1)
  (first.bind (·.block), second.bind (·.block), first.bind (·.extCommit))

/-- `PopRequest`; `none` is its panic on a missing requester. -/
def popRequest (pool : BlockPool ID) : Option (BlockPool ID) :=
  match pool.requesters.lookup pool.height with
  | none => none
  | some _ => some { pool with requesters := pool.requesters.erase pool.height, height := pool.height + 1 }

/-- `updateMaxPeerHeight`: the largest reported height, and `0` when no peer reports a larger one. -/
def updateMaxPeerHeight (pool : BlockPool ID) : BlockPool ID :=
  { pool with maxPeerHeight := pool.peers.foldl (fun max _ peer =>
      if peer.height > max then peer.height else max) 0 }

/-- `removePeer`: a redo for every requester of the peer, and the maximum recomputed only when the peer's
    height was the cached one. -/
def removePeer (pool : BlockPool ID) (peerID : ID) : BlockPool ID :=
  let pool := { pool with requesters := pool.requesters.mapVal fun _ (requester : BPRequester ID) =>
    if requester.peerID = some peerID then requester.redo peerID else requester }
  match pool.peers.lookup peerID with
  | none => pool
  | some peer =>
    let pool := { pool with peers := pool.peers.erase peerID }
    if peer.height = pool.maxPeerHeight then pool.updateMaxPeerHeight else pool

/-- `RedoRequest`; `none` is the nil dereference of a missing requester. -/
def redoRequest (pool : BlockPool ID) (height : Int) : Option (BlockPool ID × Option ID) :=
  match pool.requesters.lookup height with
  | none => none
  | some request =>
    match request.peerID with
    | none => some (pool, none)
    | some peerID => some (pool.removePeer peerID, some peerID)

/-- `AddBlock`. -/
def addBlock (pool : BlockPool ID) (peerID : ID) (block : Block) (extCommit : Option ExtendedCommit) :
    Except (AddBlockError ID) (BlockPool ID) :=
  match extCommit.filter fun c => c.height ≠ block.height with
  | some c => .error (.heightsMismatch block.height c.height)
  | none =>
    match pool.requesters.lookup block.height with
    | none => .error (.unexpectedBlock peerID pool.height block.height)
    | some requester =>
      match requester.setBlock block extCommit peerID with
      | none => .error (.requesterMismatch peerID requester.peerID block.height)
      | some requester' => .ok
        { pool with
          requesters := pool.requesters.insert block.height requester'
          numPending := pool.numPending - 1
          peers := match pool.peers.lookup peerID with
            | some peer => pool.peers.insert peerID peer.decrPending
            | none => pool.peers }

/-- `SetPeerRange`: the cached maximum is only ever raised here. -/
def setPeerRange (pool : BlockPool ID) (peerID : ID) (base height : Int) : BlockPool ID :=
  { pool with
    peers := match pool.peers.lookup peerID with
      | some peer => pool.peers.insert peerID { peer with base := base, height := height }
      | none => pool.peers.insert peerID (newBPPeer base height)
    maxPeerHeight := if height > pool.maxPeerHeight then height else pool.maxPeerHeight }

/-- `pickIncrAvailablePeer`, visiting the peers in `order` (Go's map order): a timed-out peer met on the
    way is removed, and the first one that can serve `height` gets one more pending request. -/
def pickIncrAvailablePeer (pool : BlockPool ID) (height : Int) : List ID → BlockPool ID × Option ID
  | [] => (pool, none)
  | peerID :: order =>
    match pool.peers.lookup peerID with
    | none => pool.pickIncrAvailablePeer height order
    | some peer =>
      if peer.didTimeout then (pool.removePeer peerID).pickIncrAvailablePeer height order
      else if peer.numPending ≥ maxPendingRequestsPerPeer then pool.pickIncrAvailablePeer height order
      else if height < peer.base ∨ height > peer.height then pool.pickIncrAvailablePeer height order
      else ({ pool with peers := pool.peers.insert peerID peer.incrPending }, some peerID)

/-- `makeNextRequester`. -/
def makeNextRequester (pool : BlockPool ID) : BlockPool ID :=
  let nextHeight := pool.height + pool.requestersLen
  if nextHeight > pool.maxPeerHeight then pool
  else { pool with
    requesters := pool.requesters.insert nextHeight (newBPRequester nextHeight)
    numPending := pool.numPending + 1 }

/-- `reset` of the requester `bpr` at `height`: a dropped block is pending again. -/
def reset (pool : BlockPool ID) (height : Int) (bpr : BPRequester ID) : BlockPool ID :=
  { pool with
    requesters := pool.requesters.insert height bpr.reset
    numPending := if bpr.block.isSome then pool.numPending + 1 else pool.numPending }

/-- One pass of the `PICK_PEER_LOOP` of the requester at `height`: the peer `pickIncrAvailablePeer` gives
    becomes its peer, and the routine waits. -/
def pickPeer (pool : BlockPool ID) (height : Int) (order : List ID) : Option (BlockPool ID) :=
  match pool.requesters.lookup height with
  | none => none
  | some bpr =>
    if bpr.peerID.isSome then none
    else
      match pool.pickIncrAvailablePeer bpr.height order with
      | (pool, none) => some pool
      | (pool, some peerID) =>
        some { pool with requesters := pool.requesters.insert height { bpr with peerID := some peerID } }

/-- The retry timer of the waiting requester at `height` fires: it resets. -/
def retryTimeout (pool : BlockPool ID) (height : Int) : Option (BlockPool ID) :=
  match pool.requesters.lookup height with
  | some bpr => if bpr.peerID.isSome then some (pool.reset height bpr) else none
  | none => none

/-- The waiting requester at `height` receives from `redoCh`: it resets when the ID is its peer's. -/
def receiveRedo (pool : BlockPool ID) (height : Int) : Option (BlockPool ID) :=
  match pool.requesters.lookup height with
  | some bpr =>
    match bpr.peerID, bpr.redoCh with
    | some peerID, some redoID =>
      let bpr := { bpr with redoCh := none }
      if redoID = peerID then some (pool.reset height bpr)
      else some { pool with requesters := pool.requesters.insert height bpr }
    | _, _ => none
  | none => none

/-- `onTimeout` of a peer's timer. -/
def onTimeout (pool : BlockPool ID) (peerID : ID) : BlockPool ID :=
  match pool.peers.lookup peerID with
  | some peer => { pool with peers := pool.peers.insert peerID { peer with didTimeout := true } }
  | none => pool

end BlockPool

/-- The operations on the pool: its methods, as the reactor calls them, and the events of the requesters'
    routines and the peers' timers. -/
inductive PoolOp (ID : Type)
  | setPeerRange (peerID : ID) (base height : Int)
  | removePeer (peerID : ID)
  | makeNextRequester
  | addBlock (peerID : ID) (block : Block) (extCommit : Option ExtendedCommit)
  /-- `PopRequest`, which the reactor calls once `PeekTwoBlocks` has given both blocks. -/
  | popRequest
  | redoRequest (height : Int)
  | pickPeer (height : Int) (order : List ID)
  | retryTimeout (height : Int)
  | receiveRedo (height : Int)
  | onTimeout (peerID : ID)

namespace BlockPool

/-! What each operation does to the pool, for the proofs about runs. -/

@[simp]
theorem setPeerRange_requesters (pool : BlockPool ID) (peerID : ID) (base height : Int) :
    (pool.setPeerRange peerID base height).requesters = pool.requesters := rfl

@[simp]
theorem setPeerRange_height (pool : BlockPool ID) (peerID : ID) (base height : Int) :
    (pool.setPeerRange peerID base height).height = pool.height := rfl

@[simp]
theorem setPeerRange_numPending (pool : BlockPool ID) (peerID : ID) (base height : Int) :
    (pool.setPeerRange peerID base height).numPending = pool.numPending := rfl

omit [DecidableEq ID] in
@[simp]
theorem makeNextRequester_peers (pool : BlockPool ID) : pool.makeNextRequester.peers = pool.peers := by
  unfold makeNextRequester
  dsimp only
  split <;> rfl

omit [DecidableEq ID] in
@[simp]
theorem makeNextRequester_maxPeerHeight (pool : BlockPool ID) :
    pool.makeNextRequester.maxPeerHeight = pool.maxPeerHeight := by
  unfold makeNextRequester
  dsimp only
  split <;> rfl

omit [DecidableEq ID] in
theorem redo_work (bpr : BPRequester ID) (peerID : ID) :
    (bpr.redo peerID).height = bpr.height ∧ (bpr.redo peerID).peerID = bpr.peerID ∧
      (bpr.redo peerID).block = bpr.block := by
  unfold BPRequester.redo
  split <;> exact ⟨rfl, rfl, rfl⟩

/-- `removePeer` touches the requesters only through `redo`. -/
theorem removePeer_requesters (pool : BlockPool ID) (peerID : ID) :
    (pool.removePeer peerID).requesters = pool.requesters.mapVal fun _ requester =>
      if requester.peerID = some peerID then requester.redo peerID else requester := by
  unfold removePeer
  dsimp only
  split
  · rfl
  · split <;> rfl

@[simp]
theorem removePeer_height (pool : BlockPool ID) (peerID : ID) : (pool.removePeer peerID).height = pool.height := by
  unfold removePeer
  dsimp only
  split
  · rfl
  · split <;> rfl

@[simp]
theorem removePeer_numPending (pool : BlockPool ID) (peerID : ID) :
    (pool.removePeer peerID).numPending = pool.numPending := by
  unfold removePeer
  dsimp only
  split
  · rfl
  · split <;> rfl

theorem setBlock_eq_some {bpr bpr' : BPRequester ID} {block : Block} {extCommit : Option ExtendedCommit}
    {peerID : ID} :
    bpr.setBlock block extCommit peerID = some bpr' ↔
      bpr.block = none ∧ bpr.peerID = some peerID ∧ bpr' = { bpr with block := some block, extCommit := extCommit } := by
  unfold BPRequester.setBlock
  split
  · rename_i h
    simp only [reduceCtorEq, false_iff, not_and]
    intro hb hp
    simp [hb, hp] at h
  · rename_i h
    simp only [Option.some.injEq, not_or, Option.isSome_iff_ne_none, ne_eq, not_not] at h ⊢
    exact ⟨fun e => ⟨h.1, h.2, e.symm⟩, fun e => e.2.2.symm⟩

/-- A successful `AddBlock` stores the block at its height in a requester that had none and whose peer sent
    it; one request fewer is pending. -/
theorem addBlock_eq_ok {pool pool' : BlockPool ID} {peerID : ID} {block : Block}
    {extCommit : Option ExtendedCommit} (h : pool.addBlock peerID block extCommit = .ok pool') :
    ∃ bpr, pool.requesters.lookup block.height = some bpr ∧ bpr.block = none ∧ bpr.peerID = some peerID ∧
      pool' = { pool with
        requesters := pool.requesters.insert block.height { bpr with block := some block, extCommit := extCommit }
        numPending := pool.numPending - 1
        peers := match pool.peers.lookup peerID with
          | some peer => pool.peers.insert peerID peer.decrPending
          | none => pool.peers } := by
  unfold addBlock at h
  split at h
  · cases h
  · split at h
    · cases h
    · rename_i bpr hl
      split at h
      · cases h
      · rename_i bpr' hset
        obtain ⟨hb, hp, rfl⟩ := setBlock_eq_some.mp hset
        cases h
        exact ⟨bpr, hl, hb, hp, rfl⟩

omit [DecidableEq ID] in
theorem popRequest_eq_some {pool pool' : BlockPool ID} (h : pool.popRequest = some pool') :
    pool.height ∈ pool.requesters ∧
      pool' = { pool with requesters := pool.requesters.erase pool.height, height := pool.height + 1 } := by
  unfold popRequest at h
  split at h
  · cases h
  · rename_i hl
    cases h
    exact ⟨AList.lookup_isSome.mp (by rw [hl]; rfl), rfl⟩

theorem redoRequest_eq_some {pool : BlockPool ID} {height : Int} {r : BlockPool ID × Option ID}
    (h : pool.redoRequest height = some r) : r.1 = pool ∨ ∃ peerID, r.1 = pool.removePeer peerID := by
  unfold redoRequest at h
  split at h
  · cases h
  · split at h <;> cases h
    · exact .inl rfl
    · exact .inr ⟨_, rfl⟩

/-- A pick starts from a requester without a peer; the peer it finds, if any, becomes its peer. -/
theorem pickPeer_eq_some {pool pool' : BlockPool ID} {height : Int} {order : List ID}
    (h : pool.pickPeer height order = some pool') :
    ∃ bpr, pool.requesters.lookup height = some bpr ∧ bpr.peerID = none ∧
      (pool' = (pool.pickIncrAvailablePeer bpr.height order).1 ∨
        ∃ peerID, pool' = { (pool.pickIncrAvailablePeer bpr.height order).1 with
          requesters := (pool.pickIncrAvailablePeer bpr.height order).1.requesters.insert height
            { bpr with peerID := some peerID } }) := by
  unfold pickPeer at h
  split at h
  · cases h
  · rename_i bpr hl
    split at h
    · cases h
    · rename_i hp
      refine ⟨bpr, hl, Option.not_isSome_iff_eq_none.mp hp, ?_⟩
      split at h <;> rename_i hpick <;> rw [hpick] <;> cases h
      · exact .inl rfl
      · exact .inr ⟨_, rfl⟩

omit [DecidableEq ID] in
theorem retryTimeout_eq_some {pool pool' : BlockPool ID} {height : Int} (h : pool.retryTimeout height = some pool') :
    ∃ bpr, pool.requesters.lookup height = some bpr ∧ pool' = pool.reset height bpr := by
  unfold retryTimeout at h
  split at h
  · rename_i bpr hl
    split at h
    · cases h
      exact ⟨bpr, hl, rfl⟩
    · cases h
  · cases h

/-- A redo for the requester's own peer resets it; any other only empties `redoCh`. -/
theorem receiveRedo_eq_some {pool pool' : BlockPool ID} {height : Int} (h : pool.receiveRedo height = some pool') :
    ∃ bpr, pool.requesters.lookup height = some bpr ∧
      (pool' = pool.reset height { bpr with redoCh := none } ∨
        pool' = { pool with requesters := pool.requesters.insert height { bpr with redoCh := none } }) := by
  unfold receiveRedo at h
  split at h
  · rename_i bpr hl
    split at h
    · split at h <;> cases h
      · exact ⟨bpr, hl, .inl rfl⟩
      · exact ⟨bpr, hl, .inr rfl⟩
    · cases h
  · cases h

@[simp]
theorem onTimeout_requesters (pool : BlockPool ID) (peerID : ID) :
    (pool.onTimeout peerID).requesters = pool.requesters := by
  unfold onTimeout
  split <;> rfl

@[simp]
theorem onTimeout_height (pool : BlockPool ID) (peerID : ID) : (pool.onTimeout peerID).height = pool.height := by
  unfold onTimeout
  split <;> rfl

@[simp]
theorem onTimeout_numPending (pool : BlockPool ID) (peerID : ID) :
    (pool.onTimeout peerID).numPending = pool.numPending := by
  unfold onTimeout
  split <;> rfl

@[simp]
theorem onTimeout_maxPeerHeight (pool : BlockPool ID) (peerID : ID) :
    (pool.onTimeout peerID).maxPeerHeight = pool.maxPeerHeight := by
  unfold onTimeout
  split <;> rfl

/-- One operation; `none` when it cannot happen, or panics. A failed `AddBlock` changes nothing. -/
def step (pool : BlockPool ID) : PoolOp ID → Option (BlockPool ID)
  | .setPeerRange peerID base height => some (pool.setPeerRange peerID base height)
  | .removePeer peerID => some (pool.removePeer peerID)
  | .makeNextRequester => some pool.makeNextRequester
  | .addBlock peerID block extCommit =>
    match pool.addBlock peerID block extCommit with
    | .ok pool' => some pool'
    | .error _ => some pool
  | .popRequest =>
    match pool.peekTwoBlocks with
    | (some _, some _, _) => pool.popRequest
    | _ => none
  | .redoRequest height => (pool.redoRequest height).map Prod.fst
  | .pickPeer height order => pool.pickPeer height order
  | .retryTimeout height => pool.retryTimeout height
  | .receiveRedo height => pool.receiveRedo height
  | .onTimeout peerID => some (pool.onTimeout peerID)

def run (pool : BlockPool ID) (ops : List (PoolOp ID)) : Option (BlockPool ID) :=
  ops.foldlM step pool

@[simp]
theorem run_nil (pool : BlockPool ID) : pool.run [] = some pool := rfl

@[simp]
theorem run_cons (pool : BlockPool ID) (op : PoolOp ID) (ops : List (PoolOp ID)) :
    pool.run (op :: ops) = (pool.step op).bind (·.run ops) := rfl

theorem run_append (pool : BlockPool ID) (ops ops' : List (PoolOp ID)) :
    pool.run (ops ++ ops') = (pool.run ops).bind (·.run ops') := by
  simp only [run, List.foldlM_append]
  rfl

theorem run_append_singleton (pool : BlockPool ID) (ops : List (PoolOp ID)) (op : PoolOp ID) :
    pool.run (ops ++ [op]) = (pool.run ops).bind (·.step op) := by
  rw [run_append]
  congr
  funext pool'
  simp

end BlockPool

end CometBFT.Blocksync
