import CometBFT.P2P.MConnection
import CometBFT.Lib.Reassembly

/-! Every message a connection accepts on a channel reaches the other end whole, once, and in order,
    whatever channel each round of the send routine picks, as long as the messages are not empty and fit
    the receiver's capacity. The invariant says, channel by channel, that the messages sent are those
    delivered followed by those still in flight: completed by the packets on the wire, being sent, or
    queued (`ChannelInv`). The receive routine then never stops for an error: every packet on the wire
    has a channel on both ends, and what it adds to a message stays within that message. -/

namespace CometBFT

namespace Conn

open Reassembly

/-! ### The messages and packets of one channel -/

/-- The messages of channel `k`, in order. -/
def msgsOn (k : UInt8) (xs : List (UInt8 × List UInt8)) : List (List UInt8) := (xs.filter (·.1 = k)).map Prod.snd

/-- The packets of channel `k` on the wire, as fragments of its messages. -/
def fragmentsOn (k : UInt8) (ps : List PacketMsg) : List (Bool × List UInt8) :=
  (ps.filter fun p => p.channelID = (k.toNat : Int)).map fun p => (p.eof, p.data)

@[simp] theorem msgsOn_nil (k : UInt8) : msgsOn k [] = [] := rfl

@[simp] theorem msgsOn_append (k : UInt8) (xs ys : List (UInt8 × List UInt8)) :
    msgsOn k (xs ++ ys) = msgsOn k xs ++ msgsOn k ys := by
  simp [msgsOn]

@[simp] theorem msgsOn_singleton (k k' : UInt8) (m : List UInt8) :
    msgsOn k [(k', m)] = if k' = k then [m] else [] := by
  by_cases h : k' = k <;> simp [msgsOn, h]

@[simp] theorem fragmentsOn_nil (k : UInt8) : fragmentsOn k [] = [] := rfl

@[simp] theorem fragmentsOn_append (k : UInt8) (ps ps' : List PacketMsg) :
    fragmentsOn k (ps ++ ps') = fragmentsOn k ps ++ fragmentsOn k ps' := by
  simp [fragmentsOn]

@[simp] theorem fragmentsOn_cons (k : UInt8) (p : PacketMsg) (ps : List PacketMsg) :
    fragmentsOn k (p :: ps) = if p.channelID = (k.toNat : Int) then (p.eof, p.data) :: fragmentsOn k ps else fragmentsOn k ps := by
  by_cases h : p.channelID = (k.toNat : Int) <;> simp [fragmentsOn, h]

theorem toNat_eq_toNat {k k' : UInt8} : (k.toNat : Int) = (k'.toNat : Int) ↔ k = k' := by
  rw [Int.natCast_inj, UInt8.toNat_inj]

/-! ### One channel's two ends -/

/-- The messages of a channel not yet delivered: those the packets on the wire complete, after what the
    receiving end holds; the one being sent, whose start the receiving end and the wire hold; and those
    queued. -/
def inflight (recving : List UInt8) (fs : List (Bool × List UInt8)) (chS : Channel) : List (List UInt8) :=
  (collect recving fs).1 ++ (if chS.sending = [] then [] else [(collect recving fs).2 ++ chS.sending]) ++
    chS.sendQueue

/-- The invariant of a channel's sending end `chS` and receiving end `chR`, with the messages sent and
    delivered on it and its packets on the wire. -/
structure ChannelInv (sent delivered : List (List UInt8)) (fs : List (Bool × List UInt8)) (chS chR : Channel) :
    Prop where
  conserve : sent = delivered ++ inflight chR.recving fs chS
  /-- Between messages, the receiving end and the wire hold no start of one. -/
  idle : chS.sending = [] → (collect chR.recving fs).2 = []
  queued : ∀ m ∈ chS.sendQueue, m ≠ []
  fits : ∀ m ∈ sent, m.length ≤ chR.desc.recvMessageCapacity
  /-- `sendQueueSize` counts the messages queued and the one being sent. -/
  size : chS.sendQueueSize = (chS.sendQueue.length : Int) + if chS.sending = [] then 0 else 1

section ChannelInv

variable {sent delivered : List (List UInt8)} {fs : List (Bool × List UInt8)} {chS chR : Channel}

theorem ChannelInv.sendBytes {m : List UInt8} {chS' : Channel} (h : ChannelInv sent delivered fs chS chR)
    (hs : chS.sendBytes m = some chS') (hm : m ≠ []) (hcap : m.length ≤ chR.desc.recvMessageCapacity) :
    ChannelInv (sent ++ [m]) delivered fs chS' chR := by
  obtain rfl := Channel.sendBytes_eq_some hs
  obtain ⟨hc, hi, hq, hf, hz⟩ := h
  refine ⟨?_, hi, ?_, ?_, ?_⟩
  · rw [hc]
    simp [inflight]
  · intro x hx
    rcases List.mem_append.mp hx with hx | hx
    · exact hq x hx
    · rw [List.mem_singleton.mp hx]
      exact hm
  · intro x hx
    rcases List.mem_append.mp hx with hx | hx
    · exact hf x hx
    · rw [List.mem_singleton.mp hx]
      exact hcap
  · simp only [hz, List.length_append, List.length_singleton]
    push_cast
    omega

/-- Taking the next message off the queue keeps the invariant: the wire and the receiving end hold no start
    of a message then. -/
theorem ChannelInv.isSendPending (h : ChannelInv sent delivered fs chS chR) :
    ChannelInv sent delivered fs chS.isSendPending.2 chR := by
  rcases Channel.isSendPending_cases chS with ⟨-, hp⟩ | ⟨bytes, q, hs, hq, hp⟩ | ⟨-, -, hp⟩
  · rw [hp]
    exact h
  · rw [hp]
    obtain ⟨hc, hi, hqd, hf, hz⟩ := h
    have hb : bytes ≠ [] := hqd bytes (by simp [hq])
    refine ⟨?_, fun h' => absurd h' hb, fun x hx => hqd x (by simp [hq, hx]), hf, ?_⟩
    · rw [hc]
      simp [inflight, hs, hq, hb, hi hs]
    · simp [hz, hs, hq, hb]
  · rw [hp]
    exact h

/-- A channel that reports a packet pending has a message being sent. -/
theorem ChannelInv.sending_of_isSendPending (h : ChannelInv sent delivered fs chS chR)
    (hp : chS.isSendPending.1 = true) : chS.isSendPending.2.sending ≠ [] := by
  rcases Channel.isSendPending_cases chS with ⟨hs, hp'⟩ | ⟨bytes, q, -, hq, hp'⟩ | ⟨-, -, hp'⟩
  · rw [hp']
    exact hs
  · rw [hp']
    exact h.queued bytes (by simp [hq])
  · rw [hp'] at hp
    cases hp

/-- Writing the next packet of the message being sent keeps the invariant: the packet moves the message's
    next bytes to the wire, and the last one ends it. -/
theorem ChannelInv.nextPacketMsg (h : ChannelInv sent delivered fs chS chR) (hne : chS.sending ≠ []) :
    ChannelInv sent delivered (fs ++ [(chS.nextPacketMsg.1.eof, chS.nextPacketMsg.1.data)])
      chS.nextPacketMsg.2 chR := by
  obtain ⟨hc, hi, hq, hf, hz⟩ := h
  by_cases hle : chS.sending.length ≤ chS.maxPacketMsgPayloadSize
  · rw [Channel.nextPacketMsg_of_le hle]
    refine ⟨?_, fun _ => by simp [collect_append_last], hq, hf, ?_⟩
    · rw [hc]
      simp [inflight, collect_append_last, hne]
    · simp only [hz, hne, if_false, if_true]
      omega
  · have hlt : chS.maxPacketMsgPayloadSize < chS.sending.length := Nat.lt_of_not_le hle
    rw [Channel.nextPacketMsg_of_lt hlt]
    have hdrop : chS.sending.drop chS.maxPacketMsgPayloadSize ≠ [] := by
      simp only [ne_eq, List.drop_eq_nil_iff, Nat.not_le]
      exact hlt
    refine ⟨?_, fun h' => absurd h' hdrop, hq, hf, ?_⟩
    · rw [hc]
      simp [inflight, collect_append_more, hne, hdrop]
    · simp [hz, hne, hdrop]

/-- The receiving end takes the next packet of the channel without error: the packet's data stays within
    the message it belongs to, which fits the capacity. It keeps the invariant, and a message it completes
    is the next one sent. -/
theorem ChannelInv.recvPacketMsg {p : PacketMsg} (h : ChannelInv sent delivered ((p.eof, p.data) :: fs) chS chR) :
    ∃ msg chR', chR.recvPacketMsg p = .ok (msg, chR') ∧ chR'.desc = chR.desc ∧
      ChannelInv sent (delivered ++ msg.toList) fs chS chR' := by
  obtain ⟨hc, hi, hq, hf, hz⟩ := h
  -- What the fragments complete or start is a message in flight, so it fits the capacity.
  have hcap : ∀ m ∈ (collect chR.recving ((p.eof, p.data) :: fs)).1 ++
      [(collect chR.recving ((p.eof, p.data) :: fs)).2], m.length ≤ chR.desc.recvMessageCapacity := by
    intro m hm
    rcases List.mem_append.mp hm with hm | hm
    · exact hf m (by rw [hc]; simp [inflight, hm])
    · rw [List.mem_singleton.mp hm]
      by_cases hs : chS.sending = []
      · simp [hi hs]
      · have := hf ((collect chR.recving ((p.eof, p.data) :: fs)).2 ++ chS.sending) (by rw [hc]; simp [inflight, hs])
        rw [List.length_append] at this
        omega
  rw [Channel.recvPacketMsg_of_le (length_le_of_collect hcap)]
  cases heof : p.eof
  · rw [heof] at hc hi
    exact ⟨none, _, rfl, rfl, by simpa [inflight] using hc, by simpa using hi, hq, hf, hz⟩
  · rw [heof] at hc hi
    refine ⟨some _, _, rfl, rfl, ?_, by simpa using hi, hq, hf, hz⟩
    rw [hc]
    simp [inflight]

/-- The messages delivered on a channel are the first of those sent. -/
theorem ChannelInv.delivered_isPrefix (h : ChannelInv sent delivered fs chS chR) : delivered <+: sent := by
  rw [h.conserve]
  exact List.prefix_append _ _

/-- With no packet of the channel on the wire and nothing queued or being sent, every message sent has been
    delivered. -/
theorem ChannelInv.drained (h : ChannelInv sent delivered [] chS chR) (hq : chS.sendQueue = [])
    (hs : chS.sending = []) : delivered = sent := by
  rw [h.conserve]
  simp [inflight, hq, hs]

end ChannelInv

/-! ### The link -/

/-- The capacity for one message of the receiver's channel `chID`, none when it has no such channel. -/
def MConnection.recvCapacity (c : MConnection) (chID : UInt8) : ℕ :=
  ((c.channel chID).map (·.desc.recvMessageCapacity)).getD 0

/-- A `Send` whose message is not empty and fits the receiver's capacity `cap`; the other events always. -/
def Event.Fits (cap : UInt8 → ℕ) : Event → Prop
  | .send chID msgBytes => msgBytes ≠ [] ∧ msgBytes.length ≤ cap chID
  | _ => True

/-- The invariant of a link: the sender's channel IDs are distinct, every packet on the wire names a
    channel, and every channel of the sender has a channel of the receiver with which it keeps
    `ChannelInv`; an ID the sender has no channel of has no messages and no packets. -/
structure Link.Inv (l : Link) : Prop where
  nodup : l.sender.channelIDs.Nodup
  wire_ids : ∀ p ∈ l.wire, ∃ k : UInt8, p.channelID = k.toNat
  unknown : ∀ k, l.sender.channel k = none →
    msgsOn k l.sent = [] ∧ msgsOn k l.delivered = [] ∧ fragmentsOn k l.wire = []
  known : ∀ k chS, l.sender.channel k = some chS → ∃ chR, l.receiver.channel k = some chR ∧
    ChannelInv (msgsOn k l.sent) (msgsOn k l.delivered) (fragmentsOn k l.wire) chS chR

namespace Link.Inv

variable {l : Link}

/-- A `Send` keeps the invariant: a queued message is added to the channel's messages sent and queued. -/
theorem send (hl : l.Inv) {chID : UInt8} {msgBytes : List UInt8} (hm : msgBytes ≠ [])
    (hcap : msgBytes.length ≤ l.receiver.recvCapacity chID) :
    (Link.mk (l.sender.send chID msgBytes).2 l.wire l.receiver
      (if (l.sender.send chID msgBytes).1 then l.sent ++ [(chID, msgBytes)] else l.sent) l.delivered).Inv := by
  cases hidx : l.sender.channelIndex chID with
  | none =>
    rw [MConnection.send_of_none hidx]
    exact hl
  | some i =>
    have hids := MConnection.channelIDs_of_channelIndex hidx
    simp only [MConnection.channelIDs, List.getElem?_map, Option.map_eq_some_iff] at hids
    obtain ⟨chS, hch, hid⟩ := hids
    have hchan : l.sender.channel chID = some chS := MConnection.channel_eq_some.mpr ⟨i, hidx, hch⟩
    rw [MConnection.send_of_channel hidx hch]
    cases hsb : chS.sendBytes msgBytes with
    | none => exact hl
    | some chS' =>
      have hd : chS'.desc = chS.desc := by rw [Channel.sendBytes_eq_some hsb]
      have hset := MConnection.channel_set (hid ▸ hidx) hch hd
      obtain ⟨chR, hR, hinv⟩ := hl.known chID chS hchan
      have hcapR : msgBytes.length ≤ chR.desc.recvMessageCapacity := by
        simpa [MConnection.recvCapacity, hR] using hcap
      refine ⟨?_, hl.wire_ids, fun k hk => ?_, fun k chS₁ hk => ?_⟩
      · rw [MConnection.channelIDs_set hch hd]
        exact hl.nodup
      · rw [hset, hid] at hk
        split at hk
        · cases hk
        · simpa [Ne.symm ‹¬k = chID›] using hl.unknown k hk
      · rw [hset, hid] at hk
        split at hk
        · subst_vars
          cases hk
          simpa using ⟨chR, hR, hinv.sendBytes hsb hm hcapR⟩
        · simpa [Ne.symm ‹¬k = chID›] using hl.known k chS₁ hk

/-- A round of the send routine keeps the invariant, whichever channel it picks: every channel takes the
    next message off its queue when idle, and the packet written extends its channel's packets on the wire. -/
theorem sendPacket (hl : l.Inv) {lc : ℕ} {packet : Option PacketMsg} {sender' : MConnection}
    (h : l.sender.sendPacketMsg lc = some (packet, sender')) :
    (Link.mk sender' (l.wire ++ packet.toList) l.receiver l.sent l.delivered).Inv := by
  have hmap := MConnection.channel_map (c := l.sender) Channel.desc_isSendPending
  have hids := MConnection.channelIDs_map (c := l.sender) Channel.desc_isSendPending
  rcases MConnection.sendPacketMsg_eq_some h with ⟨rfl, -, rfl⟩ | ⟨ch, hch, hpend, rfl, rfl⟩
  · -- No packet pending: the channels only take their next messages.
    refine ⟨hids ▸ hl.nodup, by simpa using hl.wire_ids, fun k hk => ?_, fun k chS₁ hk => ?_⟩
    · rw [hmap, Option.map_eq_none_iff] at hk
      simpa using hl.unknown k hk
    · rw [hmap, Option.map_eq_some_iff] at hk
      obtain ⟨chS, hk, rfl⟩ := hk
      obtain ⟨chR, hR, hinv⟩ := hl.known k chS hk
      exact ⟨chR, hR, by simpa using hinv.isSendPending⟩
  · -- The channel `ch` writes its next packet; the other channels only take their next messages.
    have hch1 : (l.sender.channels.map (·.isSendPending.2))[lc]? = some ch.isSendPending.2 := by simp [hch]
    have hidx1 : MConnection.channelIndex ⟨l.sender.channels.map (·.isSendPending.2)⟩ ch.isSendPending.2.desc.id =
        some lc :=
      MConnection.channelIndex_of_nodup (hids ▸ hl.nodup) (MConnection.channelIDs_getElem? hch1)
    have hset := MConnection.channel_set hidx1 hch1 (Channel.desc_nextPacketMsg _)
    simp only [Channel.desc_isSendPending, hmap] at hset
    have hchan : l.sender.channel ch.desc.id = some ch := MConnection.channel_of_nodup hl.nodup hch
    refine ⟨?_, ?_, fun k hk => ?_, fun k chS₁ hk => ?_⟩
    · rw [MConnection.channelIDs_set hch1 (Channel.desc_nextPacketMsg _), hids]
      exact hl.nodup
    · intro q hq
      rcases List.mem_append.mp hq with hq | hq
      · exact hl.wire_ids q hq
      · simp only [Option.toList_some, List.mem_singleton] at hq
        exact ⟨ch.desc.id, by simp [hq]⟩
    · rw [hset] at hk
      split at hk
      · cases hk
      · rw [Option.map_eq_none_iff] at hk
        simpa [toNat_eq_toNat, UInt8.toNat_inj, Ne.symm ‹¬k = ch.desc.id›] using hl.unknown k hk
    · rw [hset] at hk
      split at hk
      · subst_vars
        cases hk
        obtain ⟨chR, hR, hinv⟩ := hl.known _ ch hchan
        have hnext := hinv.isSendPending.nextPacketMsg (hinv.sending_of_isSendPending hpend)
        exact ⟨chR, hR, by simpa using hnext⟩
      · rw [Option.map_eq_some_iff] at hk
        obtain ⟨chS, hk, rfl⟩ := hk
        obtain ⟨chR, hR, hinv⟩ := hl.known k chS hk
        exact ⟨chR, hR, by simpa [toNat_eq_toNat, UInt8.toNat_inj, Ne.symm ‹¬k = ch.desc.id›] using hinv.isSendPending⟩

theorem msgsOn_toList_map (k k' : UInt8) (msg : Option (List UInt8)) :
    msgsOn k' (msg.map (k, ·)).toList = if k = k' then msg.toList else [] := by
  cases msg <;> simp

/-- The receive routine takes the next packet without error and keeps the invariant: the packet's channel
    is known at both ends, and a message it completes is delivered. -/
theorem recvPacket (hl : l.Inv) {p : PacketMsg} {ws : List PacketMsg} (hw : l.wire = p :: ws) :
    ∃ msg receiver', l.receiver.recvPacket p = .ok (msg, receiver') ∧
      receiver'.recvCapacity = l.receiver.recvCapacity ∧
      (Link.mk l.sender ws receiver' l.sent (l.delivered ++ msg.toList)).Inv := by
  obtain ⟨k, hk⟩ := hl.wire_ids p (by simp [hw])
  have hfrag : fragmentsOn k l.wire = (p.eof, p.data) :: fragmentsOn k ws := by simp [hw, hk]
  cases hS : l.sender.channel k with
  | none =>
    have := (hl.unknown k hS).2.2
    rw [hfrag] at this
    cases this
  | some chS =>
    obtain ⟨chR, hR, hinv⟩ := hl.known k chS hS
    rw [hfrag] at hinv
    obtain ⟨msg, chR', hrecv, hdesc, hinv'⟩ := hinv.recvPacketMsg
    obtain ⟨i, hi, hch⟩ := MConnection.channel_eq_some.mp hR
    have hid : chR.desc.id = k := MConnection.id_of_channel hR
    have hset := MConnection.channel_set (hid ▸ hi) hch hdesc
    rw [hid] at hset
    refine ⟨msg.map (k, ·), ⟨l.receiver.channels.set i chR'⟩, ?_, ?_, ?_⟩
    · rw [MConnection.recvPacket_of_channel hk hi hch, hrecv]
      rfl
    · funext k'
      simp only [MConnection.recvCapacity, hset]
      split
      · subst_vars
        simp [hR, hdesc]
      · rfl
    · refine ⟨hl.nodup, fun q hq => hl.wire_ids q (by simp [hw, hq]), fun k' hk' => ?_, fun k' chS' hk' => ?_⟩
      · have hne : k ≠ k' := by
          rintro rfl
          rw [hS] at hk'
          cases hk'
        have := hl.unknown k' hk'
        rw [hw] at this
        simpa [msgsOn_toList_map, hne, hk, toNat_eq_toNat, UInt8.toNat_inj] using this
      · by_cases hkk : k' = k
        · subst hkk
          rw [hS] at hk'
          cases hk'
          exact ⟨chR', by simp [hset], by simpa [msgsOn_toList_map] using hinv'⟩
        · obtain ⟨chR₁, hR₁, hinv₁⟩ := hl.known k' chS' hk'
          rw [hw] at hinv₁
          refine ⟨chR₁, by simp [hset, hkk, hR₁], ?_⟩
          simpa [msgsOn_toList_map, Ne.symm hkk, hk, toNat_eq_toNat, UInt8.toNat_inj] using hinv₁

/-- Every step of a link keeps the invariant and never stops the receiver for an error, and it keeps the
    receiver's capacities. -/
theorem step (hl : l.Inv) {e : Event} (hfit : e.Fits l.receiver.recvCapacity) {r : Except RecvError Link}
    (h : l.step e = some r) : ∃ l', r = .ok l' ∧ l'.Inv ∧ l'.receiver.recvCapacity = l.receiver.recvCapacity := by
  cases e with
  | send chID msgBytes =>
    cases h
    exact ⟨_, rfl, hl.send hfit.1 hfit.2, rfl⟩
  | sendPacket lc =>
    obtain ⟨⟨packet, sender'⟩, hs, rfl⟩ := Option.map_eq_some_iff.mp h
    exact ⟨_, rfl, hl.sendPacket hs, rfl⟩
  | recvPacket =>
    cases hw : l.wire with
    | nil =>
      simp only [Link.step, hw, Option.some.injEq] at h
      exact ⟨l, h.symm, hl, rfl⟩
    | cons p ws =>
      obtain ⟨msg, receiver', hrecv, hcap, hinv⟩ := hl.recvPacket hw
      simp only [Link.step, hw, hrecv, Option.some.injEq] at h
      exact ⟨_, h.symm, hinv, hcap⟩

/-- Every run of a link whose messages are not empty and fit the receiver's capacity keeps the invariant
    and never stops the receiver for an error. -/
theorem run (hl : l.Inv) {es : List Event} (hfit : ∀ e ∈ es, e.Fits l.receiver.recvCapacity)
    {r : Except RecvError Link} (h : l.run es = some r) : ∃ l', r = .ok l' ∧ l'.Inv := by
  -- By induction on the events, with the link and the invariant before them general.
  induction es generalizing l with
  | nil =>
    simp only [Link.run, Option.some.injEq] at h
    exact ⟨l, h.symm, hl⟩
  | cons e es ih =>
    cases hs : l.step e with
    | none => simp [Link.run, hs] at h
    | some r' =>
      obtain ⟨l', rfl, hl', hcap⟩ := hl.step (hfit e (List.mem_cons_self ..)) hs
      simp only [Link.run, hs] at h
      exact ih hl' (fun e' he' => hcap ▸ hfit e' (List.mem_cons_of_mem e he')) h

/-- A link between two new connections keeps the invariant when the sender's channel IDs are distinct and
    the receiver has a channel of each. -/
theorem init {maxS maxR : ℕ} {descS descR : List ChannelDescriptor} {sender receiver : MConnection}
    (hs : newMConnection maxS descS = some sender) (hr : newMConnection maxR descR = some receiver)
    (hnodup : (descS.map (·.id)).Nodup) (hknown : ∀ d ∈ descS, ∃ d' ∈ descR, d'.id = d.id) :
    (Link.init sender receiver).Inv := by
  obtain ⟨hidS, hfreshS⟩ := newMConnection_eq_some hs
  obtain ⟨hidR, hfreshR⟩ := newMConnection_eq_some hr
  refine ⟨?_, fun _ h => (List.not_mem_nil h).elim, fun k _ => by simp [Link.init], fun k chS hk => ?_⟩
  · show sender.channelIDs.Nodup
    rw [MConnection.channelIDs, hidS]
    exact hnodup
  -- The receiver has a channel of every ID of the sender's.
  have hkS : k ∈ descS.map (·.id) := by
    rw [← hidS]
    exact List.mem_map.mpr ⟨chS, (MConnection.channel_eq_some.mp hk).elim fun _ h => List.mem_of_getElem? h.2,
      MConnection.id_of_channel hk⟩
  obtain ⟨d, hd, rfl⟩ := List.mem_map.mp hkS
  obtain ⟨d', hd', hid'⟩ := hknown d hd
  have hkR : d.id ∈ receiver.channelIDs := by
    rw [MConnection.channelIDs, hidR, ← hid']
    exact List.mem_map_of_mem hd'
  cases hR : receiver.channel d.id with
  | none => exact absurd hkR (MConnection.channel_eq_none.mp hR)
  | some chR =>
    obtain ⟨hq, hz, -, hsend, -⟩ := hfreshS chS ((MConnection.channel_eq_some.mp hk).elim fun _ h => List.mem_of_getElem? h.2)
    obtain ⟨-, -, hrecv, -, -⟩ := hfreshR chR ((MConnection.channel_eq_some.mp hR).elim fun _ h => List.mem_of_getElem? h.2)
    refine ⟨chR, hR, ⟨?_, fun _ => by simp [Link.init, hrecv], by simp [hq], by simp [Link.init], by simp [hq, hz, hsend]⟩⟩
    simp [Link.init, inflight, hq, hsend]

/-- The messages delivered on each channel are the first of those sent on it. -/
theorem delivered_isPrefix (hl : l.Inv) (k : UInt8) : msgsOn k l.delivered <+: msgsOn k l.sent := by
  cases hk : l.sender.channel k with
  | none =>
    obtain ⟨hs, hd, -⟩ := hl.unknown k hk
    simp only [hs, hd, List.prefix_refl]
  | some chS =>
    obtain ⟨chR, -, hinv⟩ := hl.known k chS hk
    exact hinv.delivered_isPrefix

/-- `sendQueueSize` counts the messages queued on a channel and the one being sent. -/
theorem size (hl : l.Inv) : ∀ ch ∈ l.sender.channels,
    ch.sendQueueSize = (ch.sendQueue.length : Int) + if ch.sending = [] then 0 else 1 := by
  intro ch hch
  obtain ⟨i, hi⟩ := List.mem_iff_getElem?.mp hch
  obtain ⟨chR, -, hinv⟩ := hl.known _ ch (MConnection.channel_of_nodup hl.nodup hi)
  exact hinv.size

/-- With the wire empty and nothing queued or being sent, every message sent has been delivered. -/
theorem drained (hl : l.Inv) (hw : l.wire = []) (hidle : ∀ ch ∈ l.sender.channels, ch.sendQueue = [] ∧ ch.sending = [])
    (k : UInt8) : msgsOn k l.delivered = msgsOn k l.sent := by
  cases hk : l.sender.channel k with
  | none =>
    obtain ⟨hs, hd, -⟩ := hl.unknown k hk
    rw [hs, hd]
  | some chS =>
    obtain ⟨chR, -, hinv⟩ := hl.known k chS hk
    obtain ⟨i, -, hch⟩ := MConnection.channel_eq_some.mp hk
    obtain ⟨hq, hs⟩ := hidle chS (List.mem_of_getElem? hch)
    rw [hw, fragmentsOn_nil] at hinv
    exact hinv.drained hq hs

end Link.Inv

/-- Between two new connections whose sender has distinct channel IDs, each known to the receiver, every run
    whose messages are not empty and fit the receiver's capacity keeps the receiver free of errors, whichever
    channel each round picks. On every channel the messages delivered are the first of those sent, whole, in
    order and once each; `sendQueueSize` counts the messages queued and the one being sent; and once the wire is
    empty and nothing is queued or being sent, every message sent has been delivered. -/
theorem mconnection_delivers_in_order {maxS maxR : ℕ} {descS descR : List ChannelDescriptor}
    {sender receiver : MConnection} (hs : newMConnection maxS descS = some sender)
    (hr : newMConnection maxR descR = some receiver) (hnodup : (descS.map (·.id)).Nodup)
    (hknown : ∀ d ∈ descS, ∃ d' ∈ descR, d'.id = d.id) (es : List Event)
    (hfits : ∀ e ∈ es, e.Fits receiver.recvCapacity) {r : Except RecvError Link}
    (hrun : (Link.init sender receiver).run es = some r) :
    ∃ l, r = .ok l ∧ (∀ k, msgsOn k l.delivered <+: msgsOn k l.sent) ∧
      (∀ ch ∈ l.sender.channels, ch.sendQueueSize = (ch.sendQueue.length : Int) + if ch.sending = [] then 0 else 1) ∧
      (l.wire = [] → (∀ ch ∈ l.sender.channels, ch.sendQueue = [] ∧ ch.sending = []) →
        ∀ k, msgsOn k l.delivered = msgsOn k l.sent) := by
  obtain ⟨l, rfl, hl⟩ := (Link.Inv.init hs hr hnodup hknown).run hfits hrun
  exact ⟨l, rfl, hl.delivered_isPrefix, hl.size, hl.drained⟩

theorem mconnection_delivers_in_order_threeBytes :
    (Link.init ⟨[⟨⟨1, 1, 1, 22020096⟩, [], 0, [], [], 2⟩]⟩ ⟨[⟨⟨1, 1, 1, 22020096⟩, [], 0, [], [], 2⟩]⟩).run
        [.send 1 [7, 8, 9], .sendPacket 0, .sendPacket 0, .recvPacket, .recvPacket] =
      some (.ok ⟨⟨[⟨⟨1, 1, 1, 22020096⟩, [], 0, [], [], 2⟩]⟩, [], ⟨[⟨⟨1, 1, 1, 22020096⟩, [], 0, [], [], 2⟩]⟩,
        [(1, [7, 8, 9])], [(1, [7, 8, 9])]⟩) ∧
    ∃ l, (.ok ⟨⟨[⟨⟨1, 1, 1, 22020096⟩, [], 0, [], [], 2⟩]⟩, [], ⟨[⟨⟨1, 1, 1, 22020096⟩, [], 0, [], [], 2⟩]⟩,
        [(1, [7, 8, 9])], [(1, [7, 8, 9])]⟩ : Except RecvError Link) = .ok l ∧
      (∀ k, msgsOn k l.delivered <+: msgsOn k l.sent) ∧
      (∀ ch ∈ l.sender.channels, ch.sendQueueSize = (ch.sendQueue.length : Int) + if ch.sending = [] then 0 else 1) ∧
      (l.wire = [] → (∀ ch ∈ l.sender.channels, ch.sendQueue = [] ∧ ch.sending = []) →
        ∀ k, msgsOn k l.delivered = msgsOn k l.sent) :=
  ⟨rfl, @mconnection_delivers_in_order 2 2 [⟨1, 1, 0, 0⟩] [⟨1, 1, 0, 0⟩] ⟨[⟨⟨1, 1, 1, 22020096⟩, [], 0, [], [], 2⟩]⟩
    ⟨[⟨⟨1, 1, 1, 22020096⟩, [], 0, [], [], 2⟩]⟩ rfl rfl (by decide) (by decide)
    [.send 1 [7, 8, 9], .sendPacket 0, .sendPacket 0, .recvPacket, .recvPacket]
    (by simp [Event.Fits]; decide) _ rfl⟩

end Conn

end CometBFT
