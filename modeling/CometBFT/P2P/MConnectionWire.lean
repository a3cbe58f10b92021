import CometBFT.P2P.MConnectionDrain
import CometBFT.Protoio.Delimited

/-! The bytes of a connection (`p2p/conn/connection.go`, and the generated `MarshalToSizedBuffer` of
    `PacketMsg` and `Packet` in `api/cometbft/p2p/v1/conn.pb.go`). The send routine writes each packet as
    `WriteMsg(mustWrapPacket(&packet))`, and the receive routine reads with a `ReadMsg` whose `maxSize` is
    `maxPacketMsgSize()`: the size of the packet on channel `0x01` that ends a message with a full payload.

    A channel ID is written as a varint: one byte below 128, two from 128 on. Below 128 every packet of the
    send routine is within `maxPacketMsgSize`, so the reads of the receive routine cut the bytes of the
    connection into exactly the packets on the wire, in order (`mconnection_wire_reads_packets`). From 128
    on, the packet that ends a message whose rest is a whole payload is longer than `maxPacketMsgSize`, and
    `ReadMsg` refuses it (`readMsg_refuses_last_packet_of_high_channel`); the node's own reactors use the
    channels `0x00` to `0x61`. -/

namespace CometBFT

namespace Conn

open Protoio

/-! ### The encoding of a packet -/

/-- `PacketMsg.MarshalToSizedBuffer`: the channel ID, the EOF flag and the data, in field order, each left
    out at its zero value; the `int32` channel ID is written as the `uint64` of its sign extension. -/
def PacketMsg.marshal (p : PacketMsg) : List UInt8 :=
  (if p.channelID ≠ 0 then 0x08 :: encodeVarint maxVarintLen64 (toUint64 p.channelID) else []) ++
    (if p.eof then [0x10, 0x01] else []) ++
    (if 0 < p.data.length then 0x1a :: encodeVarint maxVarintLen64 p.data.length ++ p.data else [])

/-- `proto.Marshal(mustWrapPacket(&p))`: the packet as the field `packet_msg` of a `Packet`, its length in
    front (`Packet_PacketMsg.MarshalToSizedBuffer`). -/
def marshalPacket (p : PacketMsg) : List UInt8 :=
  0x1a :: encodeVarint maxVarintLen64 p.marshal.length ++ p.marshal

/-- `maxPacketMsgSize`. -/
def maxPacketMsgSize (maxPacketMsgPayloadSize : ℕ) : ℕ :=
  (marshalPacket ⟨0x01, true, List.replicate maxPacketMsgPayloadSize 0⟩).length

/-! ### Sizes -/

theorem length_encodeVarint_mono {n a b : ℕ} (h : a ≤ b) : (encodeVarint n a).length ≤ (encodeVarint n b).length := by
  induction n generalizing a b with
  | zero => simp [encodeVarint]
  | succ n ih =>
    rw [encodeVarint_succ, encodeVarint_succ]
    split_ifs with ha hb hb
    · simp
    · simp
    · omega
    · simpa using ih (Nat.div_le_div_right h)

theorem length_encodeVarint_small {n v : ℕ} (hv : v < 128) : (encodeVarint (n + 1) v).length = 1 := by
  simp [encodeVarint_succ, hv]

theorem length_encodeVarint_two {n v : ℕ} (hv : 128 ≤ v) (hv' : v < 128 * 128) :
    (encodeVarint (n + 2) v).length = 2 := by
  rw [encodeVarint_succ, if_neg (by omega), List.length_cons, length_encodeVarint_small (by omega)]

theorem toUint64_of_nonneg {x : Int} (h0 : 0 ≤ x) (h : x < 2 ^ 64) : toUint64 x = x.toNat := by
  unfold toUint64
  rw [Int.emod_eq_of_lt h0 h]

theorem length_marshal (p : PacketMsg) :
    p.marshal.length =
      (if p.channelID ≠ 0 then 1 + (encodeVarint maxVarintLen64 (toUint64 p.channelID)).length else 0) +
        (if p.eof then 2 else 0) +
        (if 0 < p.data.length then 1 + (encodeVarint maxVarintLen64 p.data.length).length + p.data.length else 0) := by
  unfold PacketMsg.marshal
  simp only [List.length_append]
  split_ifs <;> simp <;> omega

theorem length_marshalPacket (p : PacketMsg) :
    (marshalPacket p).length = 1 + (encodeVarint maxVarintLen64 p.marshal.length).length + p.marshal.length := by
  simp [marshalPacket]
  omega

theorem length_marshalPacket_mono {p q : PacketMsg} (h : p.marshal.length ≤ q.marshal.length) :
    (marshalPacket p).length ≤ (marshalPacket q).length := by
  rw [length_marshalPacket, length_marshalPacket]
  have := length_encodeVarint_mono (n := maxVarintLen64) h
  omega

theorem length_marshalPacket_lt {p q : PacketMsg} (h : p.marshal.length < q.marshal.length) :
    (marshalPacket p).length < (marshalPacket q).length := by
  rw [length_marshalPacket, length_marshalPacket]
  have := length_encodeVarint_mono (n := maxVarintLen64) (Nat.le_of_lt h)
  omega

/-- A packet takes at most 35 bytes more than its data. -/
theorem length_marshalPacket_le_data (p : PacketMsg) : (marshalPacket p).length ≤ p.data.length + 35 := by
  have h₁ := length_encodeVarint_le maxVarintLen64 (toUint64 p.channelID)
  have h₂ := length_encodeVarint_le maxVarintLen64 p.data.length
  have h₃ := length_encodeVarint_le maxVarintLen64 p.marshal.length
  have h10 : maxVarintLen64 = 10 := rfl
  have hm : p.marshal.length ≤ p.data.length + 24 := by
    rw [length_marshal]
    split_ifs <;> omega
  rw [length_marshalPacket]
  omega

/-- The packet of `maxPacketMsgSize`, with its fields' sizes. -/
theorem length_marshal_maxPacket (max : ℕ) :
    (⟨0x01, true, List.replicate max 0⟩ : PacketMsg).marshal.length =
      4 + (if 0 < max then 1 + (encodeVarint maxVarintLen64 max).length + max else 0) := by
  rw [length_marshal]
  simp [toUint64, maxVarintLen64, encodeVarint_succ]

/-- A packet on a channel below 128 whose data fit the payload is within `maxPacketMsgSize`. -/
theorem length_marshalPacket_le {p : PacketMsg} {max : ℕ} (h0 : 0 ≤ p.channelID) (h128 : p.channelID < 128)
    (hdata : p.data.length ≤ max) : (marshalPacket p).length ≤ maxPacketMsgSize max := by
  apply length_marshalPacket_mono
  rw [length_marshal, length_marshal_maxPacket]
  -- the channel ID takes one byte and its tag, the flag two, and the data no more than a full payload
  have hch : (if p.channelID ≠ 0 then 1 + (encodeVarint maxVarintLen64 (toUint64 p.channelID)).length else 0) ≤ 2 := by
    split_ifs
    · rw [toUint64_of_nonneg h0 (by omega), maxVarintLen64, length_encodeVarint_small (by omega)]
    · omega
  have hdata' : (if 0 < p.data.length then 1 + (encodeVarint maxVarintLen64 p.data.length).length + p.data.length else 0) ≤
      (if 0 < max then 1 + (encodeVarint maxVarintLen64 max).length + max else 0) := by
    have := length_encodeVarint_mono (n := maxVarintLen64) hdata
    split_ifs <;> omega
  split_ifs at hch hdata' ⊢ <;> omega

/-- A packet that ends a message with a full payload, on a channel from 128 to 16383, is longer than
    `maxPacketMsgSize`: its channel ID takes a byte more. -/
theorem maxPacketMsgSize_lt {p : PacketMsg} {max : ℕ} (h128 : 128 ≤ p.channelID) (hlt : p.channelID < 128 * 128)
    (heof : p.eof = true) (hdata : p.data.length = max) : maxPacketMsgSize max < (marshalPacket p).length := by
  apply length_marshalPacket_lt
  have hch : (if p.channelID ≠ 0 then 1 + (encodeVarint maxVarintLen64 (toUint64 p.channelID)).length else 0) = 3 := by
    rw [if_pos (by omega), toUint64_of_nonneg (by omega) (by omega), maxVarintLen64,
      length_encodeVarint_two (by omega) (by omega)]
  rw [length_marshal_maxPacket, length_marshal, hch, heof, hdata, if_pos rfl]
  split_ifs <;> omega

/-! ### The packets on the wire -/

theorem Channel.length_data_nextPacketMsg_le (ch : Channel) :
    ch.nextPacketMsg.1.data.length ≤ ch.maxPacketMsgPayloadSize := by
  unfold Channel.nextPacketMsg
  split <;> simp

/-- Every channel of a connection has the payload size `max` and an ID below 128. -/
def MConnection.LowChannels (max : ℕ) (c : MConnection) : Prop :=
  ∀ ch ∈ c.channels, ch.maxPacketMsgPayloadSize = max ∧ ch.desc.id.toNat < 128

/-- Every packet on the wire carries at most `max` bytes, on a channel below 128. -/
def Link.LowWire (max : ℕ) (l : Link) : Prop :=
  ∀ p ∈ l.wire, p.data.length ≤ max ∧ 0 ≤ p.channelID ∧ p.channelID < 128

section Wire

variable {max : ℕ}

/-- A round of the send routine writes a packet of one of its channels. -/
theorem lowWire_sendPacketMsg {c c' : MConnection} {lc : ℕ} {packet : Option PacketMsg}
    (hc : c.LowChannels max) (h : c.sendPacketMsg lc = some (packet, c')) :
    ∀ p ∈ packet.toList, p.data.length ≤ max ∧ 0 ≤ p.channelID ∧ p.channelID < 128 := by
  rcases MConnection.sendPacketMsg_eq_some h with ⟨rfl, -, -⟩ | ⟨ch, hch, -, rfl, -⟩
  · simp
  · intro p hp
    rw [Option.toList_some, List.mem_singleton] at hp
    subst hp
    obtain ⟨hmax, hid⟩ := hc ch (List.mem_of_getElem? hch)
    have hdata := Channel.length_data_nextPacketMsg_le ch.isSendPending.2
    simp only [Channel.maxPacketMsgPayloadSize_isSendPending, hmax] at hdata
    simp only [Channel.channelID_nextPacketMsg, Channel.desc_isSendPending]
    exact ⟨hdata, by omega, by omega⟩

theorem Link.step_lowWire {l l' : Link} {e : Event} (h : l.step e = some (.ok l')) (hc : l.sender.LowChannels max)
    (hw : l.LowWire max) : l'.sender.LowChannels max ∧ l'.LowWire max := by
  cases e with
  | send chID msgBytes =>
    cases h
    exact ⟨l.sender.send_keeps (fun d m => m = max ∧ d.id.toNat < 128) hc chID msgBytes, hw⟩
  | sendPacket lc =>
    obtain ⟨⟨packet, sender'⟩, hs, hr⟩ := Option.map_eq_some_iff.mp h
    cases hr
    refine ⟨l.sender.sendPacketMsg_keeps (fun d m => m = max ∧ d.id.toNat < 128) hc hs, fun p hp => ?_⟩
    rcases List.mem_append.mp hp with hp | hp
    · exact hw p hp
    · exact lowWire_sendPacketMsg hc hs p hp
  | recvPacket =>
    -- a read takes the first packet off the wire and changes nothing of the sender
    cases hwire : l.wire with
    | nil =>
      simp only [Link.step, hwire, Option.some.injEq, Except.ok.injEq] at h
      exact h ▸ ⟨hc, hw⟩
    | cons p ws =>
      simp only [Link.step, hwire, Option.some.injEq] at h
      cases hr : l.receiver.recvPacket p with
      | error err =>
        rw [hr] at h
        cases h
      | ok res =>
        rw [hr] at h
        cases h
        exact ⟨hc, fun q hq => hw q (by rw [hwire]; exact List.mem_cons_of_mem p hq)⟩

theorem Link.run_lowWire {l l' : Link} {es : List Event} (h : l.run es = some (.ok l'))
    (hc : l.sender.LowChannels max) (hw : l.LowWire max) : l'.sender.LowChannels max ∧ l'.LowWire max :=
  Link.run_of_step (fun l => l.sender.LowChannels max ∧ l.LowWire max)
    (fun _ _ _ hs ⟨hc, hw⟩ => Link.step_lowWire hs hc hw) h ⟨hc, hw⟩

theorem lowChannels_newMConnection {descs : List ChannelDescriptor} {c : MConnection}
    (h : newMConnection max descs = some c) (hlow : ∀ d ∈ descs, d.id.toNat < 128) : c.LowChannels max := by
  obtain ⟨hids, hnew⟩ := newMConnection_eq_some h
  intro ch hch
  have hmem : ch.desc.id ∈ descs.map (·.id) := hids ▸ List.mem_map_of_mem hch
  obtain ⟨d, hd, hid⟩ := List.mem_map.mp hmem
  exact ⟨(hnew ch hch).2.2.2.2, hid ▸ hlow d hd⟩

end Wire

/-- Between a new connection whose channels have IDs below 128 and any receiver whose payload size is at
    least the sender's, after every run of the link that has not stopped the receiver, the receive routine's
    reads cut the bytes the send routine wrote and the receiver has not read into exactly the packets on the
    wire, in order: each read hands `proto.Unmarshal` the encoding of the next packet and takes the bytes its
    `WriteMsg` reported, and none is refused as too large; the stream then ends with `io.EOF`. -/
theorem mconnection_wire_reads_packets {ε : Type} {maxS maxR : ℕ} {descS : List ChannelDescriptor}
    {sender receiver : MConnection} (hs : newMConnection maxS descS = some sender)
    (hlow : ∀ d ∈ descS, d.id.toNat < 128) (hle : maxS ≤ maxR) (hmax : maxR ≤ 2 ^ 62) {es : List Event} {l : Link}
    (hrun : (Link.init sender receiver).run es = some (.ok l)) :
    readMsgs (maxPacketMsgSize maxR) (fun b => (.ok b : Except ε (List UInt8)))
        (l.wire.map (writeMsg marshalPacket)).flatten =
      (l.wire.map fun p => ((writeMsg marshalPacket p).length, marshalPacket p), (0, .eof)) := by
  obtain ⟨-, hw⟩ := Link.run_lowWire hrun (lowChannels_newMConnection hs hlow) (by simp [Link.LowWire, Link.init])
  -- the bytes on the wire are the packets' encodings, each written by `WriteMsg`
  have hbytes : (l.wire.map (writeMsg marshalPacket)).flatten =
      ((l.wire.map marshalPacket).map (writeMsg id)).flatten ++ [] := by
    rw [List.append_nil, List.map_map]
    rfl
  have hsize : maxPacketMsgSize maxR + maxVarintLen64 ≤ maxInt := by
    have := length_marshalPacket_le_data ⟨0x01, true, List.replicate maxR 0⟩
    simp only [List.length_replicate] at this
    simp only [maxPacketMsgSize, maxVarintLen64, maxInt]
    omega
  have hfit : ∀ b ∈ l.wire.map marshalPacket, (id b).length ≤ maxPacketMsgSize maxR := by
    intro b hb
    obtain ⟨p, hp, rfl⟩ := List.mem_map.mp hb
    obtain ⟨hdata, h0, h128⟩ := hw p hp
    exact length_marshalPacket_le h0 h128 (Nat.le_trans hdata hle)
  rw [hbytes, readMsgs_frames hsize hfit (fun _ _ => rfl), readMsgs_nil]
  simp [List.map_map, Function.comp_def, writeMsg]

theorem mconnection_wire_reads_packets_twoPackets :
    (Link.init ⟨[⟨⟨1, 1, 1, 22020096⟩, [], 0, [], [], 2⟩]⟩ ⟨[⟨⟨1, 1, 1, 22020096⟩, [], 0, [], [], 2⟩]⟩).run
        [.send 1 [7, 8, 9], .sendPacket 0, .sendPacket 0] =
      some (.ok ⟨⟨[⟨⟨1, 1, 1, 22020096⟩, [], 0, [], [], 2⟩]⟩, [⟨1, false, [7, 8]⟩, ⟨1, true, [9]⟩],
        ⟨[⟨⟨1, 1, 1, 22020096⟩, [], 0, [], [], 2⟩]⟩, [(1, [7, 8, 9])], []⟩) ∧
    readMsgs (maxPacketMsgSize 2) (fun b => (.ok b : Except Unit (List UInt8)))
        ([⟨1, false, [7, 8]⟩, ⟨1, true, [9]⟩].map (writeMsg marshalPacket)).flatten =
      ([⟨1, false, [7, 8]⟩, ⟨1, true, [9]⟩].map fun p => ((writeMsg marshalPacket p).length, marshalPacket p),
        (0, .eof)) :=
  ⟨rfl, @mconnection_wire_reads_packets Unit 2 2 [⟨1, 1, 0, 0⟩] ⟨[⟨⟨1, 1, 1, 22020096⟩, [], 0, [], [], 2⟩]⟩
    ⟨[⟨⟨1, 1, 1, 22020096⟩, [], 0, [], [], 2⟩]⟩ rfl (by decide) (Nat.le_refl 2) (by norm_num)
    [.send 1 [7, 8, 9], .sendPacket 0, .sendPacket 0]
    ⟨⟨[⟨⟨1, 1, 1, 22020096⟩, [], 0, [], [], 2⟩]⟩, [⟨1, false, [7, 8]⟩, ⟨1, true, [9]⟩],
      ⟨[⟨⟨1, 1, 1, 22020096⟩, [], 0, [], [], 2⟩]⟩, [(1, [7, 8, 9])], []⟩ rfl⟩

/-! ### Channels from 128 on -/

/-- On a channel whose ID is 128 or more, the packet that ends a message whose rest is one whole payload is
    refused, with "message exceeds max size", by the `ReadMsg` of a receive routine with the same payload
    size, whatever the payload size: the receive routine then stops the connection. -/
theorem readMsg_refuses_last_packet_of_high_channel {ε : Type} {unmarshal : List UInt8 → Except ε PacketMsg}
    {ch : Channel} (hid : 128 ≤ ch.desc.id.toNat) (hlen : ch.sending.length = ch.maxPacketMsgPayloadSize)
    (hmax : ch.maxPacketMsgPayloadSize ≤ 2 ^ 62) (rest : List UInt8) :
    (readMsg (maxPacketMsgSize ch.maxPacketMsgPayloadSize) unmarshal
        (writeMsg marshalPacket ch.nextPacketMsg.1 ++ rest)).2 =
      .error (.exceedsMaxSize (marshalPacket ch.nextPacketMsg.1).length (maxPacketMsgSize ch.maxPacketMsgPayloadSize)) := by
  -- the packet ends the message and carries all of its rest
  have hpacket : ch.nextPacketMsg.1 = ⟨ch.desc.id.toNat, true, ch.sending⟩ := by
    rw [Channel.nextPacketMsg_of_le (Nat.le_of_eq hlen)]
  have hbyte := UInt8.toNat_lt ch.desc.id
  have hbig : maxPacketMsgSize ch.maxPacketMsgPayloadSize < (marshalPacket ch.nextPacketMsg.1).length := by
    rw [hpacket]
    exact maxPacketMsgSize_lt (by simpa using hid) (by simp; omega) rfl hlen
  have hsize : (marshalPacket ch.nextPacketMsg.1).length + maxVarintLen64 ≤ maxInt := by
    have := length_marshalPacket_le_data ch.nextPacketMsg.1
    rw [hpacket] at this ⊢
    simp only [maxVarintLen64, maxInt] at this ⊢
    omega
  rw [readMsg_exceedsMaxSize hbig hsize]

theorem readMsg_refuses_last_packet_of_high_channel_twoBytes :
    (readMsg (maxPacketMsgSize 2) (fun _ => (.error () : Except Unit PacketMsg))
        (writeMsg marshalPacket (Channel.nextPacketMsg ⟨⟨200, 1, 1, 22020096⟩, [], 1, [], [7, 8], 2⟩).1 ++ [])).2 =
      .error (.exceedsMaxSize (marshalPacket (Channel.nextPacketMsg ⟨⟨200, 1, 1, 22020096⟩, [], 1, [], [7, 8], 2⟩).1).length
        (maxPacketMsgSize 2)) :=
  @readMsg_refuses_last_packet_of_high_channel Unit (fun _ => .error ()) ⟨⟨200, 1, 1, 22020096⟩, [], 1, [], [7, 8], 2⟩
    (by decide) rfl (by norm_num) []

end Conn

end CometBFT
