import Mathlib
import CometBFT.P2P.MConnectionInvariant

/-! The link drains: from any state a run reaches, rounds of the send routine and reads of the receive
    routine deliver every message sent. A round that writes a packet takes at least one byte off the
    messages the sender holds and puts one packet on the wire, and a read takes a packet off the wire, so
    twice the bytes the sender holds plus the packets on the wire (`Link.backlog`) falls at each step,
    whichever channel the round picks. When neither can happen, the wire is empty and no channel has
    anything to send, and `Link.Inv.drained` applies. -/

namespace CometBFT

namespace Conn

/-- The bytes a channel holds to send: the rest of the message being sent and the messages queued. -/
def Channel.pendingBytes (ch : Channel) : ℕ := ch.sending.length + (ch.sendQueue.map List.length).sum

/-- Twice the bytes the sender holds to send, and the packets on the wire. -/
def Link.backlog (l : Link) : ℕ := 2 * (l.sender.channels.map Channel.pendingBytes).sum + l.wire.length

theorem sum_set_add {L : List ℕ} {i : ℕ} (hi : i < L.length) (a : ℕ) : (L.set i a).sum + L[i] = L.sum + a := by
  have hold := List.sum_set L i L[i]
  rw [List.set_getElem_self, if_pos hi] at hold
  rw [List.sum_set, if_pos hi]
  omega

@[simp] theorem Channel.pendingBytes_isSendPending (ch : Channel) :
    ch.isSendPending.2.pendingBytes = ch.pendingBytes := by
  rcases Channel.isSendPending_cases ch with ⟨-, hp⟩ | ⟨bytes, q, hs, hq, hp⟩ | ⟨-, -, hp⟩
  · rw [hp]
  · rw [hp]
    simp [Channel.pendingBytes, hs, hq]
  · rw [hp]

/-- A packet takes at least one byte of the message being sent, when packets carry at least one. -/
theorem Channel.pendingBytes_nextPacketMsg_lt {ch : Channel} (hpos : 0 < ch.maxPacketMsgPayloadSize)
    (hne : ch.sending ≠ []) : ch.nextPacketMsg.2.pendingBytes < ch.pendingBytes := by
  have hlen : 0 < ch.sending.length := List.length_pos_iff.mpr hne
  by_cases hle : ch.sending.length ≤ ch.maxPacketMsgPayloadSize
  · rw [Channel.nextPacketMsg_of_le hle]
    simp [Channel.pendingBytes]
    omega
  · rw [Channel.nextPacketMsg_of_lt (Nat.lt_of_not_le hle)]
    simp [Channel.pendingBytes]
    omega

/-! ### The payload size never changes -/

/-- Every channel of a connection writes packets of at least one byte. -/
def MConnection.PayloadPos (c : MConnection) : Prop := ∀ ch ∈ c.channels, 0 < ch.maxPacketMsgPayloadSize

theorem MConnection.PayloadPos.send {c : MConnection} (hc : c.PayloadPos) (chID : UInt8) (msgBytes : List UInt8) :
    (c.send chID msgBytes).2.PayloadPos :=
  c.send_keeps (fun _ max => 0 < max) hc chID msgBytes

theorem MConnection.PayloadPos.sendPacketMsg {c c' : MConnection} {lc : ℕ} {packet : Option PacketMsg}
    (hc : c.PayloadPos) (h : c.sendPacketMsg lc = some (packet, c')) : c'.PayloadPos :=
  c.sendPacketMsg_keeps (fun _ max => 0 < max) hc h

theorem Link.run_payloadPos {l l' : Link} {es : List Event} (h : l.run es = some (.ok l')) (hl : l.sender.PayloadPos) :
    l'.sender.PayloadPos :=
  Link.run_sender MConnection.PayloadPos (fun _ chID msgBytes hc => hc.send chID msgBytes)
    (fun _ _ _ _ hs hc => hc.sendPacketMsg hs) h hl

/-! ### Draining -/

/-- A round that picks a channel with a packet pending lowers the backlog. -/
theorem Link.backlog_sendPacket {l : Link} {lc : ℕ} {ch : Channel} (hlc : l.sender.channels[lc]? = some ch)
    (hpos : 0 < ch.maxPacketMsgPayloadSize) (hne : ch.isSendPending.2.sending ≠ []) :
    Link.backlog ⟨⟨(l.sender.channels.map (·.isSendPending.2)).set lc ch.isSendPending.2.nextPacketMsg.2⟩,
      l.wire ++ [ch.isSendPending.2.nextPacketMsg.1], l.receiver, l.sent, l.delivered⟩ < l.backlog := by
  have hlt : lc < (l.sender.channels.map Channel.pendingBytes).length := by
    rw [List.length_map]
    exact (List.getElem?_eq_some_iff.mp hlc).1
  have hget : (l.sender.channels.map Channel.pendingBytes)[lc] = ch.pendingBytes := by
    simp [(List.getElem?_eq_some_iff.mp hlc).2]
  have hpend : (l.sender.channels.map (·.isSendPending.2)).map Channel.pendingBytes =
      l.sender.channels.map Channel.pendingBytes := by
    simp
  -- The sender holds at least one byte less, and the wire holds one packet more.
  have hdrop := Channel.pendingBytes_nextPacketMsg_lt (by simpa using hpos) hne
  have hsum := sum_set_add hlt ch.isSendPending.2.nextPacketMsg.2.pendingBytes
  rw [Channel.pendingBytes_isSendPending] at hdrop
  simp only [Link.backlog, List.map_set, hpend, List.length_append, List.length_singleton]
  omega

/-- Rounds that write a packet and reads of the wire drain a link that keeps the invariant, when every channel
    of the sender writes at least one byte a packet: afterwards every message sent has been delivered. -/
theorem Link.Inv.drain {l : Link} (hl : l.Inv) (hpos : l.sender.PayloadPos) :
    ∃ es l', (∀ e ∈ es, e = .recvPacket ∨ ∃ lc, e = .sendPacket lc) ∧ l.run es = some (.ok l') ∧
      l'.sent = l.sent ∧ ∀ k, msgsOn k l'.delivered = msgsOn k l'.sent := by
  -- By strong induction on the backlog, which each step below lowers.
  induction hn : l.backlog using Nat.strongRecOn generalizing l with
  | ind n ih =>
  cases hw : l.wire with
  | cons p ws =>
    -- A packet is on the wire: the receive routine reads it.
    obtain ⟨msg, receiver', hrecv, -, hinv⟩ := hl.recvPacket hw
    have hstep : l.step .recvPacket = some (.ok ⟨l.sender, ws, receiver', l.sent, l.delivered ++ msg.toList⟩) := by
      simp only [Link.step, hw, hrecv]
      rfl
    have hlt : Link.backlog ⟨l.sender, ws, receiver', l.sent, l.delivered ++ msg.toList⟩ < n := by
      rw [← hn]
      simp [Link.backlog, hw]
    obtain ⟨es, l', hes, hrun, hsent, hdone⟩ := ih _ hlt hinv hpos rfl
    refine ⟨.recvPacket :: es, l', ?_, by rw [Link.run_cons_ok hstep]; exact hrun, hsent, hdone⟩
    intro e he
    rcases List.mem_cons.mp he with rfl | he
    · exact .inl rfl
    · exact hes e he
  | nil =>
    by_cases hall : ∀ ch ∈ l.sender.channels, ch.isSendPending.1 = false
    · -- Nothing on the wire and nothing to send: every message sent has been delivered.
      exact ⟨[], l, by simp, rfl, rfl, hl.drained hw fun ch hch => Channel.idle_of_isSendPending (hall ch hch)⟩
    · -- A channel has a packet pending: a round that picks it writes the packet.
      obtain ⟨ch, hch, hp'⟩ : ∃ ch ∈ l.sender.channels, ch.isSendPending.1 = true := by simpa using hall
      obtain ⟨lc, hlc⟩ := List.mem_iff_getElem?.mp hch
      have hround := MConnection.sendPacketMsg_of_pending hlc hp'
      have hstep : l.step (.sendPacket lc) = some (.ok ⟨⟨(l.sender.channels.map (·.isSendPending.2)).set lc
          ch.isSendPending.2.nextPacketMsg.2⟩, l.wire ++ [ch.isSendPending.2.nextPacketMsg.1], l.receiver, l.sent,
          l.delivered⟩) := by
        simp [Link.step, hround]
      have hinv := hl.sendPacket hround
      obtain ⟨chR, -, hchan⟩ := hl.known _ ch (MConnection.channel_of_nodup hl.nodup hlc)
      have hlt := Link.backlog_sendPacket hlc (hpos ch hch) (hchan.sending_of_isSendPending hp')
      rw [hn] at hlt
      obtain ⟨es, l', hes, hrun, hsent, hdone⟩ := ih _ hlt hinv (hpos.sendPacketMsg hround) rfl
      refine ⟨.sendPacket lc :: es, l', ?_, by rw [Link.run_cons_ok hstep]; exact hrun, hsent, hdone⟩
      intro e he
      rcases List.mem_cons.mp he with rfl | he
      · exact .inr ⟨lc, rfl⟩
      · exact hes e he

/-- Between two new connections whose packets carry at least one byte, after any run whose messages are not
    empty and fit the receiver's capacity, rounds of the send routine and reads of the receive routine deliver
    every message sent, with nothing more sent. -/
theorem mconnection_drains {maxS maxR : ℕ} {descS descR : List ChannelDescriptor} {sender receiver : MConnection}
    (hs : newMConnection maxS descS = some sender) (hr : newMConnection maxR descR = some receiver)
    (hmax : 0 < maxS) (hnodup : (descS.map (·.id)).Nodup) (hknown : ∀ d ∈ descS, ∃ d' ∈ descR, d'.id = d.id)
    (es : List Event) (hfits : ∀ e ∈ es, e.Fits receiver.recvCapacity) {l : Link}
    (hrun : (Link.init sender receiver).run es = some (.ok l)) :
    ∃ es' l', (∀ e ∈ es', e = .recvPacket ∨ ∃ lc, e = .sendPacket lc) ∧ l.run es' = some (.ok l') ∧
      l'.sent = l.sent ∧ ∀ k, msgsOn k l'.delivered = msgsOn k l.sent := by
  obtain ⟨l₁, hl₁, hinv⟩ := (Link.Inv.init hs hr hnodup hknown).run hfits hrun
  cases hl₁
  have hpos : sender.PayloadPos := fun ch hch => ((newMConnection_eq_some hs).2 ch hch).2.2.2.2 ▸ hmax
  obtain ⟨es', l', hes', hrun', hsent, hdone⟩ := hinv.drain (Link.run_payloadPos hrun hpos)
  exact ⟨es', l', hes', hrun', hsent, fun k => hsent ▸ hdone k⟩

theorem mconnection_drains_threeBytes :
    ∃ es' l', (∀ e ∈ es', e = .recvPacket ∨ ∃ lc, e = .sendPacket lc) ∧
      Link.run ⟨⟨[⟨⟨1, 1, 1, 22020096⟩, [[7, 8, 9]], 1, [], [], 2⟩]⟩, [], ⟨[⟨⟨1, 1, 1, 22020096⟩, [], 0, [], [], 2⟩]⟩,
        [(1, [7, 8, 9])], []⟩ es' = some (.ok l') ∧
      l'.sent = [(1, [7, 8, 9])] ∧ ∀ k, msgsOn k l'.delivered = msgsOn k [(1, [7, 8, 9])] :=
  @mconnection_drains 2 2 [⟨1, 1, 0, 0⟩] [⟨1, 1, 0, 0⟩] ⟨[⟨⟨1, 1, 1, 22020096⟩, [], 0, [], [], 2⟩]⟩
    ⟨[⟨⟨1, 1, 1, 22020096⟩, [], 0, [], [], 2⟩]⟩ rfl rfl (by decide) (by decide) (by decide) [.send 1 [7, 8, 9]]
    (by simp [Event.Fits]; decide) _ rfl

end Conn

end CometBFT
