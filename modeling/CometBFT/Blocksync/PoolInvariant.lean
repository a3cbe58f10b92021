import Mathlib.Data.List.Induction
import CometBFT.Blocksync.Pool

/-! The pool's bookkeeping over every run (`internal/blocksync/pool.go`). From `NewBlockPool` and any
    sequence of operations the requesters sit at the heights `[height, height + len(requesters))`,
    `numPending` counts those without a block, and a stored block has its requester's height and came in an
    `AddBlock` from the requester's peer, which has not changed since.

    `maxPeerHeight` bounds the reported heights but need not be their maximum: `SetPeerRange` only raises
    it, and `removePeer` recomputes it only when the removed peer's height equals it. -/

namespace CometBFT.Blocksync

variable {ID : Type}

/-- What the pool keeps of the requester at `height`: it was made for that height, a block it holds is of
    that height, and it holds none while it has no peer. -/
structure RequesterOK (height : Int) (bpr : BPRequester ID) : Prop where
  height_eq : bpr.height = height
  block_height : ∀ b ∈ bpr.block, b.height = height
  block_eq_none : bpr.peerID = none → bpr.block = none

/-- The number of requesters whose block is nil. -/
def numWithoutBlock (requesters : AList fun _ : Int => BPRequester ID) : Nat :=
  requesters.entries.countP fun e => e.2.block.isNone

/-- The requester at `h` holds block `b` and has peer `peerID`. -/
def Stored (requesters : AList fun _ : Int => BPRequester ID) (h : Int) (peerID : ID) (b : Block) : Prop :=
  ∃ bpr, requesters.lookup h = some bpr ∧ bpr.block = some b ∧ bpr.peerID = some peerID

/-- Each requester keeps its height, its peer and its block. -/
def KeepsWork (g : Int → BPRequester ID → BPRequester ID) : Prop :=
  ∀ h bpr, (g h bpr).height = bpr.height ∧ (g h bpr).peerID = bpr.peerID ∧ (g h bpr).block = bpr.block

/-- `s'` is `s` with only what the bookkeeping does not read changed. -/
def SameWork (s s' : AList fun _ : Int => BPRequester ID) : Prop :=
  ∃ g, KeepsWork g ∧ s' = s.mapVal g

/-! ## Requester maps -/

section Requesters
variable {s s' s'' : AList fun _ : Int => BPRequester ID} {h k : Int} {peerID : ID} {b : Block}

theorem SameWork.refl (s : AList fun _ : Int => BPRequester ID) : SameWork s s :=
  ⟨fun _ bpr => bpr, fun _ _ => ⟨rfl, rfl, rfl⟩, (AList.mapVal_id s).symm⟩

theorem SameWork.trans (h₁ : SameWork s s') (h₂ : SameWork s' s'') : SameWork s s'' := by
  obtain ⟨g₁, hg₁, rfl⟩ := h₁
  obtain ⟨g₂, hg₂, rfl⟩ := h₂
  refine ⟨fun h bpr => g₂ h (g₁ h bpr), fun h bpr => ?_, AList.mapVal_mapVal _ _ _⟩
  obtain ⟨a₁, b₁, c₁⟩ := hg₁ h bpr
  obtain ⟨a₂, b₂, c₂⟩ := hg₂ h (g₁ h bpr)
  exact ⟨a₂.trans a₁, b₂.trans b₁, c₂.trans c₁⟩

theorem SameWork.lookup_of_new (hs : SameWork s s') {bpr' : BPRequester ID} (hl : s'.lookup h = some bpr') :
    ∃ bpr, s.lookup h = some bpr ∧ bpr'.height = bpr.height ∧ bpr'.peerID = bpr.peerID ∧ bpr'.block = bpr.block := by
  obtain ⟨g, hg, rfl⟩ := hs
  rw [AList.lookup_mapVal] at hl
  obtain ⟨bpr, hl₀, rfl⟩ := Option.map_eq_some_iff.mp hl
  exact ⟨bpr, hl₀, hg h bpr⟩

theorem SameWork.lookup_of_old (hs : SameWork s s') {bpr : BPRequester ID} (hl : s.lookup h = some bpr) :
    ∃ bpr', s'.lookup h = some bpr' ∧ bpr'.height = bpr.height ∧ bpr'.peerID = bpr.peerID ∧ bpr'.block = bpr.block := by
  obtain ⟨g, hg, rfl⟩ := hs
  exact ⟨g h bpr, by rw [AList.lookup_mapVal, hl]; rfl, hg h bpr⟩

theorem SameWork.numWithoutBlock_eq (hs : SameWork s s') : numWithoutBlock s' = numWithoutBlock s := by
  obtain ⟨g, hg, rfl⟩ := hs
  have hblock : ∀ h bpr, (g h bpr).block = bpr.block := fun h bpr => (hg h bpr).2.2
  simp only [numWithoutBlock, AList.countP_mapVal, hblock]

theorem Stored.of_sameWork (hs : SameWork s s') (hst : Stored s' h peerID b) : Stored s h peerID b := by
  obtain ⟨bpr', hl, hb, hp⟩ := hst
  obtain ⟨bpr, hl₀, -, hp₀, hb₀⟩ := hs.lookup_of_new hl
  exact ⟨bpr, hl₀, hb₀ ▸ hb, hp₀ ▸ hp⟩

theorem Stored.of_insert {bpr' : BPRequester ID} (hst : Stored (s.insert k bpr') h peerID b) :
    (h = k ∧ bpr'.block = some b ∧ bpr'.peerID = some peerID) ∨ Stored s h peerID b := by
  obtain ⟨bpr, hl, hb, hp⟩ := hst
  by_cases hk : h = k
  · subst hk
    rw [AList.lookup_insert] at hl
    cases hl
    exact .inl ⟨rfl, hb, hp⟩
  · rw [AList.lookup_insert_ne hk] at hl
    exact .inr ⟨bpr, hl, hb, hp⟩

theorem Stored.of_erase (hst : Stored (s.erase k) h peerID b) : Stored s h peerID b := by
  obtain ⟨bpr, hl, hb, hp⟩ := hst
  by_cases hk : h = k
  · subst hk
    rw [AList.lookup_erase] at hl
    cases hl
  · rw [AList.lookup_erase_ne hk] at hl
    exact ⟨bpr, hl, hb, hp⟩

/-- A requester without a peer stores nothing, so putting one at `k` stores nothing there. -/
theorem Stored.of_insert_none {bpr' : BPRequester ID} (hb' : bpr'.block = none)
    (hst : Stored (s.insert k bpr') h peerID b) : Stored s h peerID b := by
  rcases hst.of_insert with ⟨-, hb, -⟩ | hst
  · rw [hb'] at hb
    cases hb
  · exact hst

end Requesters

variable [DecidableEq ID]

/-- `s'` has no peer that `s` lacks, and each keeps its reported height. -/
def KeepsHeights (s s' : AList fun _ : ID => BPPeer) : Prop :=
  ∀ peerID peer', s'.lookup peerID = some peer' → ∃ peer, s.lookup peerID = some peer ∧ peer'.height = peer.height

namespace BlockPool

/-- The requesters fill the window from `height`, `numPending` counts those without a block, and each keeps
    what `RequesterOK` says. -/
structure RequestersInv (pool : BlockPool ID) : Prop where
  window : ∀ h, h ∈ pool.requesters ↔ pool.height ≤ h ∧ h < pool.height + pool.requestersLen
  requester : ∀ h bpr, pool.requesters.lookup h = some bpr → RequesterOK h bpr
  numPending : pool.numPending = numWithoutBlock pool.requesters

/-- The cached maximum bounds every reported height and is not negative. -/
structure PeersInv (pool : BlockPool ID) : Prop where
  maxPeerHeight_nonneg : 0 ≤ pool.maxPeerHeight
  le_maxPeerHeight : ∀ peerID peer, pool.peers.lookup peerID = some peer → peer.height ≤ pool.maxPeerHeight

structure PoolInv (pool : BlockPool ID) : Prop where
  requesters : RequestersInv pool
  peers : PeersInv pool

end BlockPool

theorem redoFor_keepsWork (peerID : ID) :
    KeepsWork fun _ (bpr : BPRequester ID) => if bpr.peerID = some peerID then bpr.redo peerID else bpr := by
  intro _ bpr
  dsimp only
  split
  · exact BlockPool.redo_work bpr peerID
  · exact ⟨rfl, rfl, rfl⟩

theorem sameWork_removePeer (pool : BlockPool ID) (peerID : ID) :
    SameWork pool.requesters (pool.removePeer peerID).requesters :=
  ⟨_, redoFor_keepsWork peerID, BlockPool.removePeer_requesters pool peerID⟩

/-! ## Peer maps -/

section Peers
variable {s : AList fun _ : ID => BPPeer} {peerID : ID} {peer peer' : BPPeer}

theorem KeepsHeights.refl (s : AList fun _ : ID => BPPeer) : KeepsHeights s s :=
  fun _ peer hl => ⟨peer, hl, rfl⟩

theorem keepsHeights_insert (hl : s.lookup peerID = some peer) (hh : peer'.height = peer.height) :
    KeepsHeights s (s.insert peerID peer') := by
  intro q peer₁ hq
  by_cases hqp : q = peerID
  · subst hqp
    rw [AList.lookup_insert] at hq
    cases hq
    exact ⟨peer, hl, hh⟩
  · rw [AList.lookup_insert_ne hqp] at hq
    exact ⟨peer₁, hq, rfl⟩

theorem keepsHeights_erase : KeepsHeights s (s.erase peerID) := by
  intro q peer₁ hq
  by_cases hqp : q = peerID
  · subst hqp
    rw [AList.lookup_erase] at hq
    cases hq
  · rw [AList.lookup_erase_ne hqp] at hq
    exact ⟨peer₁, hq, rfl⟩

/-- `AddBlock` counts the delivery against its peer, if the peer is still there. -/
theorem keepsHeights_decrPending :
    KeepsHeights s (match s.lookup peerID with
      | some peer => s.insert peerID peer.decrPending
      | none => s) := by
  split
  · rename_i peer hl
    exact keepsHeights_insert hl rfl
  · exact KeepsHeights.refl s

theorem keepsHeights_onTimeout (pool : BlockPool ID) (peerID : ID) :
    KeepsHeights pool.peers (pool.onTimeout peerID).peers := by
  unfold BlockPool.onTimeout
  split
  · rename_i peer hl
    exact keepsHeights_insert hl rfl
  · exact KeepsHeights.refl _

omit [DecidableEq ID] in
/-- The fold of `updateMaxPeerHeight` is at least where it starts and at least every height it passes. -/
theorem le_foldl_maxHeight (l : List (Sigma fun _ : ID => BPPeer)) (m : Int) :
    m ≤ l.foldl (fun max e => if e.2.height > max then e.2.height else max) m ∧
      ∀ e ∈ l, e.2.height ≤ l.foldl (fun max e => if e.2.height > max then e.2.height else max) m := by
  induction l generalizing m with
  | nil => simp
  | cons e l ih =>
    obtain ⟨hstart, hall⟩ := ih (if e.2.height > m then e.2.height else m)
    have hm : m ≤ (if e.2.height > m then e.2.height else m) := by split <;> omega
    have he : e.2.height ≤ (if e.2.height > m then e.2.height else m) := by split <;> omega
    refine ⟨Int.le_trans hm hstart, fun e' he' => ?_⟩
    rcases List.mem_cons.mp he' with rfl | he'
    · exact Int.le_trans he hstart
    · exact hall e' he'

end Peers

namespace BlockPool

variable {pool pool' : BlockPool ID}

/-! ## One step keeps the bookkeeping -/

section Step

omit [DecidableEq ID] in
theorem RequestersInv.of_sameWork (h : RequestersInv pool) (hs : SameWork pool.requesters pool'.requesters)
    (hh : pool'.height = pool.height) (hn : pool'.numPending = pool.numPending) : RequestersInv pool' := by
  obtain ⟨g, hg, hr⟩ := hs
  refine ⟨fun j => ?_, fun j bpr hl => ?_, ?_⟩
  · rw [requestersLen, hr, AList.mem_mapVal, AList.keys_mapVal, hh]
    exact h.window j
  · obtain ⟨bpr₀, hl₀, hheight, hpeer, hblock⟩ := (show SameWork pool.requesters pool'.requesters from ⟨g, hg, hr⟩).lookup_of_new hl
    have ok := h.requester j bpr₀ hl₀
    exact ⟨hheight.trans ok.height_eq, hblock ▸ ok.block_height,
      fun hp => hblock.trans (ok.block_eq_none (hpeer ▸ hp))⟩
  · rw [hn, h.numPending, (show SameWork pool.requesters pool'.requesters from ⟨g, hg, hr⟩).numWithoutBlock_eq]

omit [DecidableEq ID] in
/-- Putting `bpr'` in the place of the requester `bpr` at `k`: `numPending` must follow the change of its
    block. -/
theorem RequestersInv.update (h : RequestersInv pool) {k : Int} {bpr bpr' : BPRequester ID}
    (hl : pool.requesters.lookup k = some bpr) (hok : RequesterOK k bpr')
    (hr : pool'.requesters = pool.requesters.insert k bpr') (hh : pool'.height = pool.height)
    (hn : pool'.numPending + (if bpr.block.isNone then 1 else 0) =
      pool.numPending + (if bpr'.block.isNone then 1 else 0)) :
    RequestersInv pool' := by
  have hk : k ∈ pool.requesters := AList.lookup_isSome.mp (by rw [hl]; rfl)
  refine ⟨fun j => ?_, fun j bpr₁ hj => ?_, ?_⟩
  · rw [requestersLen, hr, AList.mem_insert, AList.length_keys_insert_of_mem hk, hh, ← requestersLen,
      ← h.window j]
    exact ⟨fun hj => hj.elim (· ▸ hk) id, Or.inr⟩
  · rw [hr] at hj
    by_cases hjk : j = k
    · subst hjk
      rw [AList.lookup_insert] at hj
      cases hj
      exact hok
    · rw [AList.lookup_insert_ne hjk] at hj
      exact h.requester j bpr₁ hj
  · have herase := AList.countP_erase_of_lookup (fun e => e.2.block.isNone) hl
    have hold := h.numPending
    rw [numWithoutBlock, ← herase] at hold
    rw [numWithoutBlock, hr, AList.countP_insert]
    dsimp only at hold ⊢
    push_cast at hold ⊢
    split_ifs at hold hn ⊢ <;> omega

omit [DecidableEq ID] in
theorem RequestersInv.reset (h : RequestersInv pool) {height : Int} {bpr bpr₀ : BPRequester ID}
    (hl : pool.requesters.lookup height = some bpr) (hh : bpr₀.height = bpr.height) (hb : bpr₀.block = bpr.block) :
    RequestersInv (pool.reset height bpr₀) := by
  have ok := h.requester height bpr hl
  have hok : RequesterOK height bpr₀.reset := ⟨hh.trans ok.height_eq, by simp [BPRequester.reset], fun _ => rfl⟩
  refine h.update hl hok rfl rfl ?_
  simp only [BlockPool.reset, BPRequester.reset, hb]
  cases bpr.block <;> simp

omit [DecidableEq ID] in
theorem RequestersInv.makeNextRequester (h : RequestersInv pool) : RequestersInv pool.makeNextRequester := by
  unfold BlockPool.makeNextRequester
  dsimp only
  split
  · exact h
  · have hfresh : pool.height + pool.requestersLen ∉ pool.requesters := by
      rw [h.window]
      omega
    refine ⟨fun j => ?_, fun j bpr hj => ?_, ?_⟩
    · have hw := h.window j
      simp only [requestersLen] at hw hfresh ⊢
      rw [AList.mem_insert, AList.length_keys_insert_of_notMem hfresh, hw]
      push_cast
      omega
    · dsimp only at hj
      by_cases hjk : j = pool.height + pool.requestersLen
      · subst hjk
        rw [AList.lookup_insert] at hj
        cases hj
        exact ⟨rfl, by simp [newBPRequester], fun _ => rfl⟩
      · rw [AList.lookup_insert_ne hjk] at hj
        exact h.requester j bpr hj
    · dsimp only
      rw [numWithoutBlock, AList.countP_insert_of_notMem _ hfresh, h.numPending, numWithoutBlock]
      simp [newBPRequester]

omit [DecidableEq ID] in
/-- `PopRequest` after `PeekTwoBlocks` gave the first block drops a requester with a block. -/
theorem RequestersInv.popRequest (h : RequestersInv pool) (hpeek : (pool.peekTwoBlocks).1.isSome)
    (hpop : pool.popRequest = some pool') : RequestersInv pool' := by
  obtain ⟨hmem, rfl⟩ := popRequest_eq_some hpop
  obtain ⟨bpr, hl⟩ := Option.isSome_iff_exists.mp (AList.lookup_isSome.mpr hmem)
  have hlen := AList.length_keys_erase_of_mem hmem
  refine ⟨fun j => ?_, fun j bpr₁ hj => ?_, ?_⟩
  · have hw := h.window j
    simp only [requestersLen] at hw ⊢
    rw [AList.mem_erase, hw]
    omega
  · by_cases hjk : j = pool.height
    · subst hjk
      rw [AList.lookup_erase] at hj
      cases hj
    · rw [AList.lookup_erase_ne hjk] at hj
      exact h.requester j bpr₁ hj
  · have hb : bpr.block.isSome := by simpa [peekTwoBlocks, hl] using hpeek
    have herase := AList.countP_erase_of_lookup (fun e => e.2.block.isNone) hl
    simp only [Option.isSome_iff_ne_none, ne_eq] at hb
    simp only [hb, Option.isNone_iff_eq_none, if_false, Nat.add_zero] at herase
    rw [h.numPending, numWithoutBlock, numWithoutBlock, ← herase]

theorem PeersInv.of_keepsHeights (h : PeersInv pool) (hp : KeepsHeights pool.peers pool'.peers)
    (hm : pool'.maxPeerHeight = pool.maxPeerHeight) : PeersInv pool' := by
  refine ⟨hm ▸ h.maxPeerHeight_nonneg, fun peerID peer' hl => ?_⟩
  obtain ⟨peer, hl₀, hh⟩ := hp peerID peer' hl
  rw [hh, hm]
  exact h.le_maxPeerHeight peerID peer hl₀

theorem PeersInv.of_eq (h : PeersInv pool) (hp : pool'.peers = pool.peers)
    (hm : pool'.maxPeerHeight = pool.maxPeerHeight) : PeersInv pool' :=
  h.of_keepsHeights (hp ▸ KeepsHeights.refl _) hm

theorem peersInv_updateMaxPeerHeight (pool : BlockPool ID) : PeersInv pool.updateMaxPeerHeight := by
  obtain ⟨hstart, hall⟩ := le_foldl_maxHeight pool.peers.entries 0
  refine ⟨hstart, fun peerID peer hl => ?_⟩
  exact hall ⟨peerID, peer⟩ (AList.mem_lookup_iff.mp hl)

theorem PeersInv.setPeerRange (h : PeersInv pool) (peerID : ID) (base height : Int) :
    PeersInv (pool.setPeerRange peerID base height) := by
  have hmax : pool.maxPeerHeight ≤ (pool.setPeerRange peerID base height).maxPeerHeight := by
    simp only [BlockPool.setPeerRange]
    split <;> omega
  have hnew : height ≤ (pool.setPeerRange peerID base height).maxPeerHeight := by
    simp only [BlockPool.setPeerRange]
    split <;> omega
  refine ⟨Int.le_trans h.maxPeerHeight_nonneg hmax, fun q peer hq => ?_⟩
  -- the peer set now has `height`; every other peer keeps the one the old maximum bounds
  have hold : ∀ peer₀, pool.peers.lookup q = some peer₀ → peer.height = peer₀.height →
      peer.height ≤ (pool.setPeerRange peerID base height).maxPeerHeight :=
    fun peer₀ hl₀ hh => hh ▸ Int.le_trans (h.le_maxPeerHeight q peer₀ hl₀) hmax
  by_cases hqp : q = peerID
  · subst hqp
    simp only [BlockPool.setPeerRange] at hq
    split at hq <;> rw [AList.lookup_insert] at hq <;> cases hq <;> exact hnew
  · simp only [BlockPool.setPeerRange] at hq
    split at hq <;> rw [AList.lookup_insert_ne hqp] at hq <;> exact hold peer hq rfl

theorem PeersInv.removePeer (h : PeersInv pool) (peerID : ID) : PeersInv (pool.removePeer peerID) := by
  unfold BlockPool.removePeer
  dsimp only
  split
  · exact h.of_keepsHeights (KeepsHeights.refl _) rfl
  · split
    · exact peersInv_updateMaxPeerHeight _
    · exact h.of_keepsHeights keepsHeights_erase rfl

theorem PoolInv.removePeer (h : PoolInv pool) (peerID : ID) : PoolInv (pool.removePeer peerID) :=
  ⟨h.requesters.of_sameWork (sameWork_removePeer pool peerID) (removePeer_height pool peerID)
    (removePeer_numPending pool peerID), h.peers.removePeer peerID⟩

/-- The loop of `pickIncrAvailablePeer` removes peers and counts a request; it keeps the bookkeeping, and of
    the requesters only what it does not read changes. -/
theorem PoolInv.pickIncrAvailablePeer (h : PoolInv pool) (height : Int) (order : List ID) :
    PoolInv (pool.pickIncrAvailablePeer height order).1 ∧
      SameWork pool.requesters (pool.pickIncrAvailablePeer height order).1.requesters := by
  induction order generalizing pool with
  | nil => exact ⟨h, SameWork.refl _⟩
  | cons peerID order ih =>
    rw [BlockPool.pickIncrAvailablePeer]
    split
    · exact ih h
    · rename_i peer hl
      split
      · -- a timed-out peer is removed before the loop goes on
        obtain ⟨h', hs'⟩ := ih (h.removePeer peerID)
        exact ⟨h', (sameWork_removePeer pool peerID).trans hs'⟩
      · split
        · exact ih h
        · split
          · exact ih h
          · exact ⟨⟨h.requesters.of_sameWork (SameWork.refl _) rfl rfl,
              h.peers.of_keepsHeights (keepsHeights_insert hl rfl) rfl⟩, SameWork.refl _⟩

theorem PoolInv.pickPeer (h : PoolInv pool) {height : Int} {order : List ID}
    (hs : pool.pickPeer height order = some pool') : PoolInv pool' := by
  obtain ⟨bpr, hl, hp, hpool⟩ := pickPeer_eq_some hs
  obtain ⟨h₁, hs₁⟩ := h.pickIncrAvailablePeer bpr.height order
  rcases hpool with rfl | ⟨peerID, rfl⟩
  · exact h₁
  · have ok := h.requesters.requester height bpr hl
    obtain ⟨bpr₁, hl₁, -, -, hb₁⟩ := hs₁.lookup_of_old hl
    have hb : bpr.block = none := ok.block_eq_none hp
    have hok : RequesterOK height { bpr with peerID := some peerID } := ⟨ok.height_eq, by simp [hb], fun _ => hb⟩
    refine ⟨h₁.requesters.update hl₁ hok rfl rfl ?_, ?_⟩
    · simp [hb, hb₁]
    · exact h₁.peers.of_keepsHeights (KeepsHeights.refl _) rfl

/-- Every operation keeps the bookkeeping. -/
theorem PoolInv.step (h : PoolInv pool) {op : PoolOp ID} (hs : pool.step op = some pool') : PoolInv pool' := by
  cases op with
  | setPeerRange peerID base height =>
    cases hs
    exact ⟨h.requesters.of_sameWork (SameWork.refl _) rfl rfl, h.peers.setPeerRange peerID base height⟩
  | removePeer peerID =>
    cases hs
    exact h.removePeer peerID
  | makeNextRequester =>
    cases hs
    exact ⟨h.requesters.makeNextRequester,
      h.peers.of_eq (makeNextRequester_peers pool) (makeNextRequester_maxPeerHeight pool)⟩
  | addBlock peerID block extCommit =>
    simp only [BlockPool.step] at hs
    split at hs
    · rename_i pool₁ hadd
      cases hs
      obtain ⟨bpr, hl, hb, hp, rfl⟩ := addBlock_eq_ok hadd
      have ok := h.requesters.requester block.height bpr hl
      have hok : RequesterOK block.height { bpr with block := some block, extCommit := extCommit } :=
        ⟨ok.height_eq, by simp, fun hp' => by simp [hp] at hp'⟩
      exact ⟨h.requesters.update hl hok rfl rfl (by simp [hb]),
        h.peers.of_keepsHeights keepsHeights_decrPending rfl⟩
    · cases hs
      exact h
  | popRequest =>
    simp only [BlockPool.step] at hs
    split at hs
    · rename_i hpeek
      refine ⟨h.requesters.popRequest (by rw [hpeek]; rfl) hs, ?_⟩
      obtain ⟨-, rfl⟩ := popRequest_eq_some hs
      exact h.peers.of_keepsHeights (KeepsHeights.refl _) rfl
    · cases hs
  | redoRequest height =>
    obtain ⟨r, hr, rfl⟩ := Option.map_eq_some_iff.mp hs
    rcases redoRequest_eq_some hr with hr | ⟨peerID, hr⟩ <;> rw [hr]
    · exact h
    · exact h.removePeer peerID
  | pickPeer height order => exact h.pickPeer hs
  | retryTimeout height =>
    obtain ⟨bpr, hl, rfl⟩ := retryTimeout_eq_some hs
    exact ⟨h.requesters.reset hl rfl rfl, h.peers.of_keepsHeights (KeepsHeights.refl _) rfl⟩
  | receiveRedo height =>
    obtain ⟨bpr, hl, rfl | rfl⟩ := receiveRedo_eq_some hs
    · exact ⟨h.requesters.reset hl rfl rfl, h.peers.of_keepsHeights (KeepsHeights.refl _) rfl⟩
    · have ok := h.requesters.requester height bpr hl
      have hok : RequesterOK height { bpr with redoCh := none } := ⟨ok.height_eq, ok.block_height, ok.block_eq_none⟩
      exact ⟨h.requesters.update hl hok rfl rfl rfl, h.peers.of_keepsHeights (KeepsHeights.refl _) rfl⟩
  | onTimeout peerID =>
    cases hs
    exact ⟨h.requesters.of_sameWork (by rw [onTimeout_requesters]; exact SameWork.refl _) (by simp) (by simp),
      h.peers.of_keepsHeights (keepsHeights_onTimeout pool peerID) (onTimeout_maxPeerHeight pool peerID)⟩

/-- What one step can do to a stored block: keep it with its peer, or be the `AddBlock` that stores it. -/
theorem stored_of_step (h : PoolInv pool) {op : PoolOp ID} (hs : pool.step op = some pool') {k : Int}
    {peerID : ID} {b : Block} (hst : Stored pool'.requesters k peerID b) :
    Stored pool.requesters k peerID b ∨ ∃ extCommit, op = .addBlock peerID b extCommit := by
  cases op with
  | setPeerRange => cases hs; exact .inl hst
  | removePeer q =>
    cases hs
    exact .inl (hst.of_sameWork (sameWork_removePeer pool q))
  | makeNextRequester =>
    cases hs
    unfold BlockPool.makeNextRequester at hst
    dsimp only at hst
    split at hst
    · exact .inl hst
    · exact .inl (Stored.of_insert_none rfl hst)
  | addBlock q block extCommit =>
    simp only [BlockPool.step] at hs
    split at hs
    · rename_i pool₁ hadd
      cases hs
      obtain ⟨bpr, hl, -, hp, rfl⟩ := addBlock_eq_ok hadd
      rcases Stored.of_insert hst with ⟨-, hb, hp'⟩ | hst
      · simp only [Option.some.injEq] at hb
        rw [hp, Option.some.injEq] at hp'
        subst hb hp'
        exact .inr ⟨extCommit, rfl⟩
      · exact .inl hst
    · cases hs
      exact .inl hst
  | popRequest =>
    simp only [BlockPool.step] at hs
    split at hs
    · obtain ⟨-, rfl⟩ := popRequest_eq_some hs
      exact .inl hst.of_erase
    · cases hs
  | redoRequest height =>
    obtain ⟨r, hr, rfl⟩ := Option.map_eq_some_iff.mp hs
    rcases redoRequest_eq_some hr with hr | ⟨q, hr⟩ <;> rw [hr] at hst
    · exact .inl hst
    · exact .inl (hst.of_sameWork (sameWork_removePeer pool q))
  | pickPeer height order =>
    obtain ⟨bpr, hl, hp, hpool⟩ := pickPeer_eq_some hs
    have hs₁ := (h.pickIncrAvailablePeer bpr.height order).2
    rcases hpool with rfl | ⟨q, rfl⟩
    · exact .inl (hst.of_sameWork hs₁)
    · have hb : bpr.block = none := (h.requesters.requester height bpr hl).block_eq_none hp
      dsimp only at hst
      exact .inl ((Stored.of_insert_none (show ({ bpr with peerID := some q } : BPRequester ID).block = none from hb)
        hst).of_sameWork hs₁)
  | retryTimeout height =>
    obtain ⟨bpr, hl, rfl⟩ := retryTimeout_eq_some hs
    exact .inl (Stored.of_insert_none rfl hst)
  | receiveRedo height =>
    obtain ⟨bpr, hl, rfl | rfl⟩ := receiveRedo_eq_some hs
    · exact .inl (Stored.of_insert_none rfl hst)
    · rcases Stored.of_insert hst with ⟨rfl, hb, hp⟩ | hst
      · exact .inl ⟨bpr, hl, hb, hp⟩
      · exact .inl hst
  | onTimeout q =>
    cases hs
    rw [onTimeout_requesters] at hst
    exact .inl hst

end Step

/-! ## Runs -/

theorem poolInv_newBlockPool (start : Int) : PoolInv (newBlockPool start : BlockPool ID) := by
  refine ⟨⟨fun h => ?_, fun h bpr hl => ?_, rfl⟩, ⟨Int.le_refl 0, fun peerID peer hl => ?_⟩⟩
  · simp [newBlockPool, requestersLen]
  · simp [newBlockPool] at hl
  · simp [newBlockPool] at hl

theorem PoolInv.run (h : PoolInv pool) {ops : List (PoolOp ID)} (hrun : pool.run ops = some pool') :
    PoolInv pool' := by
  induction ops generalizing pool with
  | nil =>
    cases hrun
    exact h
  | cons op ops ih =>
    rw [run_cons] at hrun
    obtain ⟨pool₁, h₁, h₂⟩ := Option.bind_eq_some_iff.mp hrun
    exact ih (h.step h₁) h₂

/-- The bookkeeping holds after every run: the requester window, the pending count, the heights of stored
    blocks, and a cached maximum that bounds every reported height. -/
theorem run_poolInv {start : Int} {ops : List (PoolOp ID)} (hrun : (newBlockPool start).run ops = some pool) :
    PoolInv pool :=
  (poolInv_newBlockPool start).run hrun

theorem run_poolInv_oneRequester :
    ∃ pool, (newBlockPool 1 : BlockPool Nat).run [.setPeerRange 0 1 10, .makeNextRequester] = some pool ∧
      PoolInv pool :=
  ⟨_, rfl, @run_poolInv Nat _ _ 1 [.setPeerRange 0 1 10, .makeNextRequester] rfl⟩

/-- The cached maximum is not the largest reported height: a peer that lowers its height from `10` to `5` leaves the cached maximum at `10`, and once
    the peer is removed the pool has no peer and a maximum of `10` still. -/
theorem maxPeerHeight_stale_after_lowering :
    ∃ pool, (newBlockPool 1 : BlockPool Nat).run [.setPeerRange 0 1 10, .setPeerRange 0 1 5] = some pool ∧
      pool.peers.entries.map (·.2.height) = [5] ∧ pool.maxPeerHeight = 10 ∧
      ∃ pool', pool.run [.removePeer 0] = some pool' ∧ pool'.peers.entries = [] ∧ pool'.maxPeerHeight = 10 :=
  ⟨_, rfl, rfl, rfl, _, rfl, rfl, rfl⟩

/-- Who delivered a stored block: a block stored in a run was stored by an `AddBlock` from the requester's peer, and the
    requester kept that block and that peer through every later operation. -/
theorem run_stored_delivered {start : Int} {ops : List (PoolOp ID)}
    (hrun : (newBlockPool start).run ops = some pool) {h : Int} {peerID : ID} {b : Block}
    (hst : Stored pool.requesters h peerID b) :
    ∃ pre extCommit post pool₁ pool₂, ops = pre ++ .addBlock peerID b extCommit :: post ∧
      (newBlockPool start).run pre = some pool₁ ∧ ¬ Stored pool₁.requesters h peerID b ∧
      pool₁.step (.addBlock peerID b extCommit) = some pool₂ ∧
      ∀ i pool', pool₂.run (post.take i) = some pool' → Stored pool'.requesters h peerID b := by
  induction ops using List.reverseRecOn generalizing pool with
  | nil =>
    cases hrun
    obtain ⟨bpr, hl, -⟩ := hst
    simp [newBlockPool] at hl
  | append_singleton ops op ih =>
    rw [run_append_singleton] at hrun
    obtain ⟨pool₀, hrun₀, hstep⟩ := Option.bind_eq_some_iff.mp hrun
    by_cases hst₀ : Stored pool₀.requesters h peerID b
    · -- stored before the last operation: the same `AddBlock`, one operation more after it
      obtain ⟨pre, c, post, pool₁, pool₂, rfl, hpre, hnot, hadd, hkeep⟩ := ih hrun₀ hst₀
      refine ⟨pre, c, post ++ [op], pool₁, pool₂, by simp, hpre, hnot, hadd, fun i pool' hi => ?_⟩
      have hpost : pool₂.run post = some pool₀ := by
        rw [List.append_cons, run_append, run_append_singleton, hpre] at hrun₀
        simpa [hadd] using hrun₀
      by_cases hle : i ≤ post.length
      · rw [List.take_append_of_le_length hle] at hi
        exact hkeep i pool' hi
      · rw [List.take_of_length_le (by simp; omega), run_append_singleton, hpost, Option.bind_some, hstep] at hi
        cases hi
        exact hst
    · -- stored by the last operation, which must be the `AddBlock`
      rcases stored_of_step ((poolInv_newBlockPool start).run hrun₀) hstep hst with hst₀' | ⟨c, rfl⟩
      · exact absurd hst₀' hst₀
      · refine ⟨ops, c, [], pool₀, pool, rfl, hrun₀, hst₀, hstep, fun i pool' hi => ?_⟩
        simp at hi
        exact hi ▸ hst

/-- A requester made for height 1, given to peer 0, which then delivers the block of height 1. -/
theorem run_stored_delivered_oneBlock :
    ∃ pool, (newBlockPool 1 : BlockPool Nat).run
        [.setPeerRange 0 1 10, .makeNextRequester, .pickPeer 1 [0], .addBlock 0 ⟨1, [7]⟩ none] = some pool ∧
      Stored pool.requesters 1 0 ⟨1, [7]⟩ ∧
      ∃ pre extCommit post pool₁ pool₂,
        [.setPeerRange 0 1 10, .makeNextRequester, .pickPeer 1 [0], .addBlock 0 ⟨1, [7]⟩ none] =
          pre ++ .addBlock 0 ⟨1, [7]⟩ extCommit :: post ∧
        (newBlockPool 1 : BlockPool Nat).run pre = some pool₁ ∧ ¬ Stored pool₁.requesters 1 0 ⟨1, [7]⟩ ∧
        pool₁.step (.addBlock 0 ⟨1, [7]⟩ extCommit) = some pool₂ ∧
        ∀ i pool', pool₂.run (post.take i) = some pool' → Stored pool'.requesters 1 0 ⟨1, [7]⟩ := by
  obtain ⟨pool, hrun, hst⟩ : ∃ pool, (newBlockPool 1 : BlockPool Nat).run
      [.setPeerRange 0 1 10, .makeNextRequester, .pickPeer 1 [0], .addBlock 0 ⟨1, [7]⟩ none] = some pool ∧
      Stored pool.requesters 1 0 ⟨1, [7]⟩ := ⟨_, rfl, _, rfl, rfl, rfl⟩
  exact ⟨pool, hrun, hst, run_stored_delivered hrun hst⟩

end BlockPool

end CometBFT.Blocksync
