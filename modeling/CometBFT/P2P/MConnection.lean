import Mathlib.Data.List.Nodup

/-! The multiplexed connection (`p2p/conn/connection.go`). Each reactor sends its messages on a channel
    of its own; `Send` queues a message on its channel, and the send routine, in each round of
    `sendPacketMsg`, takes the next message of every idle channel off its queue (`isSendPending`), picks
    one channel with a packet pending, and writes that channel's next packet: at most
    `maxPacketMsgPayloadSize` bytes of its message, with `EOF` on the last. The receive routine hands each
    packet to the channel of its ID, which gathers the packets of a message and passes the message on at
    `EOF`.

    One direction of a connection is modelled: the sender's channels, the packets on the wire in the order
    they were written, and the receiver's channels. The channel a round picks is the one of least ratio of
    `recentlySent` to `Priority`, in `float32`; it is left open here, as any channel with a packet pending,
    so the theorems hold for every choice. Ping and pong packets, flow rates and timers are left out.

    `isSendPending` takes a message off the queue whenever the channel sends nothing, whether or not the
    round then picks the channel. A message is "being sent" while `sending` is non-empty, so an empty
    message taken off the queue in a round that picks another channel is overwritten in the next round,
    and `sendQueueSize` keeps counting it (`sendPacketMsg_drops_empty_message`). -/

namespace CometBFT

namespace Conn

/-- `defaultSendQueueCapacity`. -/
def defaultSendQueueCapacity : ℕ := 1

/-- `defaultRecvMessageCapacity`. -/
def defaultRecvMessageCapacity : ℕ := 22020096

/-- `ChannelDescriptor`, with the fields the send and receive paths read. -/
structure ChannelDescriptor where
  id : UInt8
  priority : Int
  sendQueueCapacity : ℕ
  recvMessageCapacity : ℕ
  deriving DecidableEq, Repr

/-- `FillDefaults`. -/
def ChannelDescriptor.fillDefaults (chDesc : ChannelDescriptor) : ChannelDescriptor :=
  { chDesc with
    sendQueueCapacity := if chDesc.sendQueueCapacity = 0 then defaultSendQueueCapacity else chDesc.sendQueueCapacity,
    recvMessageCapacity :=
      if chDesc.recvMessageCapacity = 0 then defaultRecvMessageCapacity else chDesc.recvMessageCapacity }

/-- `PacketMsg`. -/
structure PacketMsg where
  channelID : Int
  eof : Bool
  data : List UInt8
  deriving DecidableEq, Repr

/-- `Channel`. The send queue is the Go channel of messages, in order. -/
structure Channel where
  desc : ChannelDescriptor
  sendQueue : List (List UInt8)
  sendQueueSize : Int
  recving : List UInt8
  sending : List UInt8
  maxPacketMsgPayloadSize : ℕ
  deriving DecidableEq, Repr

/-- `newChannel`; `none` is its panic on a priority that is not positive. -/
def newChannel (maxPacketMsgPayloadSize : ℕ) (desc : ChannelDescriptor) : Option Channel :=
  let desc := desc.fillDefaults
  if desc.priority ≤ 0 then none
  else some { desc, sendQueue := [], sendQueueSize := 0, recving := [], sending := [], maxPacketMsgPayloadSize }

namespace Channel

/-- `sendBytes` and `trySendBytes`: the message is queued when the queue has room. On a full queue
    `trySendBytes` returns false at once and `sendBytes` after its timeout, as `none` here. -/
def sendBytes (ch : Channel) (bytes : List UInt8) : Option Channel :=
  if ch.sendQueue.length < ch.desc.sendQueueCapacity then
    some { ch with sendQueue := ch.sendQueue ++ [bytes], sendQueueSize := ch.sendQueueSize + 1 }
  else none

/-- `canSend`. -/
def canSend (ch : Channel) : Bool := ch.sendQueueSize < defaultSendQueueCapacity

/-- `isSendPending`: whether a packet is pending; an idle channel takes the next message off its queue. -/
def isSendPending (ch : Channel) : Bool × Channel :=
  if ch.sending.length = 0 then
    match ch.sendQueue with
    | [] => (false, ch)
    | bytes :: sendQueue => (true, { ch with sending := bytes, sendQueue })
  else (true, ch)

/-- `nextPacketMsg`. -/
def nextPacketMsg (ch : Channel) : PacketMsg × Channel :=
  let data := ch.sending.take (min ch.maxPacketMsgPayloadSize ch.sending.length)
  if ch.sending.length ≤ ch.maxPacketMsgPayloadSize then
    (⟨ch.desc.id.toNat, true, data⟩, { ch with sending := [], sendQueueSize := ch.sendQueueSize - 1 })
  else
    (⟨ch.desc.id.toNat, false, data⟩,
      { ch with sending := ch.sending.drop (min ch.maxPacketMsgPayloadSize ch.sending.length) })

end Channel

/-- The errors of the receive routine on a packet. -/
inductive RecvError
  /-- "unknown channel %X" -/
  | unknownChannel (channelID : Int)
  /-- "received message exceeds available capacity: %v < %v" -/
  | exceedsCapacity (recvCap recvReceived : ℕ)
  deriving DecidableEq, Repr

/-- `recvPacketMsg`: the message, when the packet completes one, and the channel after. -/
def Channel.recvPacketMsg (ch : Channel) (packet : PacketMsg) :
    Except RecvError (Option (List UInt8) × Channel) :=
  let recvCap := ch.desc.recvMessageCapacity
  let recvReceived := ch.recving.length + packet.data.length
  if recvCap < recvReceived then .error (.exceedsCapacity recvCap recvReceived)
  else
    let recving := ch.recving ++ packet.data
    if packet.eof then .ok (some recving, { ch with recving := [] })
    else .ok (none, { ch with recving })

/-- `MConnection`: its channels, in the order of its channel descriptors. -/
structure MConnection where
  channels : List Channel
  deriving DecidableEq, Repr

/-- `NewMConnectionWithConfig`, for the channels: `none` is the panic of `newChannel`. -/
def newMConnection (maxPacketMsgPayloadSize : ℕ) (chDescs : List ChannelDescriptor) : Option MConnection :=
  (chDescs.mapM (newChannel maxPacketMsgPayloadSize)).map MConnection.mk

namespace MConnection

/-- The IDs of the channels, in order. -/
def channelIDs (c : MConnection) : List UInt8 := c.channels.map (·.desc.id)

/-- The index that `channelsIdx` files under `chID`: the map is filled in the order of the channels, so a
    later channel of an ID replaces an earlier one. -/
def channelIndex (c : MConnection) (chID : UInt8) : Option ℕ :=
  ((c.channelIDs.zipIdx.filter (·.1 = chID)).getLast?).map Prod.snd

/-- `channelsIdx[chID]`. -/
def channel (c : MConnection) (chID : UInt8) : Option Channel := (c.channelIndex chID).bind (c.channels[·]?)

/-- `Send` and `TrySend` on a running connection: whether the message was queued. -/
def send (c : MConnection) (chID : UInt8) (msgBytes : List UInt8) : Bool × MConnection :=
  match c.channelIndex chID with
  | none => (false, c)
  | some i =>
    match c.channels[i]?.bind (·.sendBytes msgBytes) with
    | none => (false, c)
    | some ch => (true, { c with channels := c.channels.set i ch })

/-- `CanSend` on a running connection. -/
def canSend (c : MConnection) (chID : UInt8) : Bool :=
  match c.channel chID with
  | none => false
  | some ch => ch.canSend

/-- `sendPacketMsg`, where `leastChannel` is the index of the channel the code picks: the packet written,
    or `none` when no channel has one pending, with the connection after. The code picks a channel with a
    packet pending; an index of another is not a round of it, and `none` here. -/
def sendPacketMsg (c : MConnection) (leastChannel : ℕ) : Option (Option PacketMsg × MConnection) :=
  let pending := c.channels.map Channel.isSendPending
  let channels := pending.map Prod.snd
  if pending.all (fun p => !p.1) then some (none, { c with channels })
  else
    match pending[leastChannel]? with
    | some (true, ch) =>
      let (packet, ch) := ch.nextPacketMsg
      some (some packet, { c with channels := channels.set leastChannel ch })
    | _ => none

/-- The receive routine on a packet: the channel and the message for `onReceive`, when the packet completes
    one, and the connection after. -/
def recvPacket (c : MConnection) (packet : PacketMsg) :
    Except RecvError (Option (UInt8 × List UInt8) × MConnection) :=
  let channelID : UInt8 := (packet.channelID % 256).toNat.toUInt8
  if packet.channelID < 0 ∨ 255 < packet.channelID then .error (.unknownChannel packet.channelID)
  else
    match c.channelIndex channelID, (c.channelIndex channelID).bind (c.channels[·]?) with
    | some i, some ch =>
      match ch.recvPacketMsg packet with
      | .error e => .error e
      | .ok (msgBytes, ch) => .ok (msgBytes.map (channelID, ·), { c with channels := c.channels.set i ch })
    | _, _ => .error (.unknownChannel packet.channelID)

end MConnection

/-! ### One direction of a connection -/

/-- The sender's and the receiver's connections, the packets on the wire in the order they were written,
    the messages `Send` queued, and the messages handed to `onReceive`, with their channels. -/
structure Link where
  sender : MConnection
  wire : List PacketMsg
  receiver : MConnection
  sent : List (UInt8 × List UInt8)
  delivered : List (UInt8 × List UInt8)
  deriving DecidableEq, Repr

/-- A link between two new connections. -/
def Link.init (sender receiver : MConnection) : Link := ⟨sender, [], receiver, [], []⟩

/-- What can happen next on a link: a `Send`, a round of the send routine that picks the channel of the
    given index, or the receive routine reading the next packet. -/
inductive Event
  | send (chID : UInt8) (msgBytes : List UInt8)
  | sendPacket (leastChannel : ℕ)
  | recvPacket
  deriving DecidableEq, Repr

/-- A step of a link: `none` is a round that picks a channel with no packet pending, and an error stops the
    receiver (`stopForError`). -/
def Link.step (l : Link) : Event → Option (Except RecvError Link)
  | .send chID msgBytes =>
    let (ok, sender) := l.sender.send chID msgBytes
    some (.ok { l with sender, sent := if ok then l.sent ++ [(chID, msgBytes)] else l.sent })
  | .sendPacket leastChannel =>
    (l.sender.sendPacketMsg leastChannel).map fun (packet, sender) =>
      .ok { l with sender, wire := l.wire ++ packet.toList }
  | .recvPacket =>
    match l.wire with
    | [] => some (.ok l)
    | packet :: wire =>
      some ((l.receiver.recvPacket packet).map fun (msg, receiver) =>
        { l with wire, receiver, delivered := l.delivered ++ msg.toList })

/-- A run of a link, up to an error of the receiver. -/
def Link.run (l : Link) : List Event → Option (Except RecvError Link)
  | [] => some (.ok l)
  | e :: es =>
    match l.step e with
    | none => none
    | some (.error err) => some (.error err)
    | some (.ok l') => l'.run es

/-! ### Channels -/

namespace Channel

variable {ch ch' : Channel}

@[simp] theorem desc_isSendPending (ch : Channel) : ch.isSendPending.2.desc = ch.desc := by
  unfold isSendPending
  split
  · split <;> rfl
  · rfl

@[simp] theorem desc_nextPacketMsg (ch : Channel) : ch.nextPacketMsg.2.desc = ch.desc := by
  unfold nextPacketMsg
  split <;> rfl

@[simp] theorem channelID_nextPacketMsg (ch : Channel) : ch.nextPacketMsg.1.channelID = ch.desc.id.toNat := by
  unfold nextPacketMsg
  split <;> rfl

theorem sendBytes_eq_some {bytes : List UInt8} (h : ch.sendBytes bytes = some ch') :
    ch' = { ch with sendQueue := ch.sendQueue ++ [bytes], sendQueueSize := ch.sendQueueSize + 1 } := by
  unfold sendBytes at h
  split at h
  · exact (Option.some.inj h).symm
  · cases h

/-- `isSendPending` either finds the channel sending, takes the head of its queue, or finds it idle. -/
theorem isSendPending_cases (ch : Channel) :
    (ch.sending ≠ [] ∧ ch.isSendPending = (true, ch)) ∨
    (∃ bytes q, ch.sending = [] ∧ ch.sendQueue = bytes :: q ∧
      ch.isSendPending = (true, { ch with sending := bytes, sendQueue := q })) ∨
    (ch.sending = [] ∧ ch.sendQueue = [] ∧ ch.isSendPending = (false, ch)) := by
  unfold isSendPending
  by_cases hs : ch.sending = []
  · have h0 : ch.sending.length = 0 := by rw [hs]; rfl
    rw [if_pos h0]
    cases hq : ch.sendQueue with
    | nil => exact .inr (.inr ⟨hs, rfl, rfl⟩)
    | cons bytes q => exact .inr (.inl ⟨bytes, q, hs, rfl, rfl⟩)
  · rw [if_neg (by simpa using hs)]
    exact .inl ⟨hs, rfl⟩

@[simp] theorem maxPacketMsgPayloadSize_isSendPending (ch : Channel) :
    ch.isSendPending.2.maxPacketMsgPayloadSize = ch.maxPacketMsgPayloadSize := by
  unfold isSendPending
  split
  · split <;> rfl
  · rfl

@[simp] theorem maxPacketMsgPayloadSize_nextPacketMsg (ch : Channel) :
    ch.nextPacketMsg.2.maxPacketMsgPayloadSize = ch.maxPacketMsgPayloadSize := by
  unfold nextPacketMsg
  split <;> rfl

/-- A channel with no packet pending has nothing queued and nothing being sent. -/
theorem idle_of_isSendPending (h : ch.isSendPending.1 = false) : ch.sendQueue = [] ∧ ch.sending = [] := by
  rcases isSendPending_cases ch with ⟨-, hp⟩ | ⟨_, _, -, -, hp⟩ | ⟨hs, hq, -⟩
  · rw [hp] at h
    cases h
  · rw [hp] at h
    cases h
  · exact ⟨hq, hs⟩

/-- The packet that ends the message being sent carries all that is left of it. -/
theorem nextPacketMsg_of_le (h : ch.sending.length ≤ ch.maxPacketMsgPayloadSize) :
    ch.nextPacketMsg = (⟨ch.desc.id.toNat, true, ch.sending⟩,
      { ch with sending := [], sendQueueSize := ch.sendQueueSize - 1 }) := by
  unfold nextPacketMsg
  rw [if_pos h, Nat.min_eq_right h, List.take_length]

/-- Any other packet carries `maxPacketMsgPayloadSize` bytes and leaves the rest. -/
theorem nextPacketMsg_of_lt (h : ch.maxPacketMsgPayloadSize < ch.sending.length) :
    ch.nextPacketMsg = (⟨ch.desc.id.toNat, false, ch.sending.take ch.maxPacketMsgPayloadSize⟩,
      { ch with sending := ch.sending.drop ch.maxPacketMsgPayloadSize }) := by
  unfold nextPacketMsg
  rw [if_neg (Nat.not_le.mpr h), Nat.min_eq_left (Nat.le_of_lt h)]

/-- `recvPacketMsg` fails only on a message over the capacity; it appends the packet's data to what the
    channel holds and passes it on at `EOF`. -/
theorem recvPacketMsg_of_le {packet : PacketMsg}
    (h : ch.recving.length + packet.data.length ≤ ch.desc.recvMessageCapacity) :
    ch.recvPacketMsg packet = if packet.eof then .ok (some (ch.recving ++ packet.data), { ch with recving := [] })
      else .ok (none, { ch with recving := ch.recving ++ packet.data }) := by
  unfold recvPacketMsg
  rw [if_neg (Nat.not_lt.mpr h)]

end Channel

/-! ### New connections -/

@[simp] theorem ChannelDescriptor.id_fillDefaults (chDesc : ChannelDescriptor) : chDesc.fillDefaults.id = chDesc.id := rfl

theorem newChannel_eq_some {max : ℕ} {desc : ChannelDescriptor} {ch : Channel} (h : newChannel max desc = some ch) :
    ch = ⟨desc.fillDefaults, [], 0, [], [], max⟩ := by
  unfold newChannel at h
  dsimp only at h
  split at h
  · cases h
  · exact (Option.some.inj h).symm

/-- A new connection has a new channel for each descriptor, in order. -/
theorem newMConnection_eq_some {max : ℕ} {chDescs : List ChannelDescriptor} {c : MConnection}
    (h : newMConnection max chDescs = some c) :
    c.channels.map (·.desc.id) = chDescs.map (·.id) ∧
      ∀ ch ∈ c.channels, ch.sendQueue = [] ∧ ch.sendQueueSize = 0 ∧ ch.recving = [] ∧ ch.sending = [] ∧
        ch.maxPacketMsgPayloadSize = max := by
  obtain ⟨chs, hchs, rfl⟩ := Option.map_eq_some_iff.mp h
  clear h
  -- By induction on the descriptors, with the channels `mapM` makes of them.
  induction chDescs generalizing chs with
  | nil =>
    cases hchs
    simp
  | cons d ds ih =>
    simp only [List.mapM_cons, Option.bind_eq_bind, Option.bind_eq_some_iff, Option.pure_def,
      Option.some.injEq] at hchs
    obtain ⟨ch, hch, chs', hchs', rfl⟩ := hchs
    obtain ⟨hids, hfresh⟩ := ih chs' hchs'
    obtain rfl := newChannel_eq_some hch
    refine ⟨by simp [hids], ?_⟩
    intro x hx
    rcases List.mem_cons.mp hx with rfl | hx
    · simp
    · exact hfresh x hx

/-! ### Looking a channel up by its ID -/

namespace MConnection

variable {c : MConnection} {k : UInt8} {i : ℕ} {ch ch' : Channel}

theorem channelIDs_getElem? (h : c.channels[i]? = some ch) : c.channelIDs[i]? = some ch.desc.id := by
  simp [channelIDs, h]

theorem channelIndex_congr {c c' : MConnection} (h : c.channelIDs = c'.channelIDs) :
    c.channelIndex = c'.channelIndex := by
  funext k
  simp only [channelIndex, h]

/-- The index filed under an ID is that of a channel of the ID. -/
theorem channelIDs_of_channelIndex (h : c.channelIndex k = some i) : c.channelIDs[i]? = some k := by
  obtain ⟨p, hp, rfl⟩ := Option.map_eq_some_iff.mp h
  have hmem := List.mem_filter.mp (List.mem_of_getLast? hp)
  have hk : p.1 = k := of_decide_eq_true hmem.2
  rw [← hk]
  exact List.mem_zipIdx_iff_getElem?.mp hmem.1

theorem channelIndex_eq_none : c.channelIndex k = none ↔ k ∉ c.channelIDs := by
  simp only [channelIndex, Option.map_eq_none_iff, List.getLast?_eq_none_iff, List.filter_eq_nil_iff,
    decide_eq_true_eq]
  constructor
  · intro h hk
    obtain ⟨i, hi⟩ := List.mem_iff_getElem?.mp hk
    exact h (k, i) (List.mem_zipIdx_iff_getElem?.mpr hi) rfl
  · intro h p hp hpk
    exact h (hpk ▸ List.mem_of_getElem? (List.mem_zipIdx_iff_getElem?.mp hp))

/-- With distinct IDs, the index filed under an ID is the only one of the ID. -/
theorem channelIndex_of_nodup (hnd : c.channelIDs.Nodup) (h : c.channelIDs[i]? = some k) :
    c.channelIndex k = some i := by
  cases hj : c.channelIndex k with
  | none => exact absurd (List.mem_of_getElem? h) (channelIndex_eq_none.mp hj)
  | some j =>
    have hj' := channelIDs_of_channelIndex hj
    obtain ⟨hi, hik⟩ := List.getElem?_eq_some_iff.mp h
    obtain ⟨hj'', hjk⟩ := List.getElem?_eq_some_iff.mp hj'
    exact congrArg some ((hnd.getElem_inj_iff).mp (hjk.trans hik.symm))

theorem channel_eq_some : c.channel k = some ch ↔ ∃ i, c.channelIndex k = some i ∧ c.channels[i]? = some ch := by
  simp [channel, Option.bind_eq_some_iff]

theorem id_of_channel (h : c.channel k = some ch) : ch.desc.id = k := by
  obtain ⟨i, hi, hch⟩ := channel_eq_some.mp h
  have := channelIDs_of_channelIndex hi
  rw [channelIDs_getElem? hch] at this
  exact Option.some.inj this

theorem channel_eq_none : c.channel k = none ↔ k ∉ c.channelIDs := by
  rw [← channelIndex_eq_none]
  constructor
  · intro h
    cases hi : c.channelIndex k with
    | none => rfl
    | some i =>
      have hid := channelIDs_of_channelIndex hi
      simp only [channelIDs, List.getElem?_map, Option.map_eq_some_iff] at hid
      obtain ⟨x, hx, -⟩ := hid
      simp [channel, hi, hx] at h
  · intro h
    simp [channel, h]

theorem channel_of_nodup (hnd : c.channelIDs.Nodup) (h : c.channels[i]? = some ch) : c.channel ch.desc.id = some ch :=
  channel_eq_some.mpr ⟨i, channelIndex_of_nodup hnd (channelIDs_getElem? h), h⟩

theorem channelIDs_set (hch : c.channels[i]? = some ch) (hd : ch'.desc = ch.desc) :
    MConnection.channelIDs ⟨c.channels.set i ch'⟩ = c.channelIDs := by
  have hlt : i < c.channels.length := (List.getElem?_eq_some_iff.mp hch).1
  apply List.ext_getElem?
  intro j
  simp only [channelIDs, List.map_set, List.getElem?_set, List.length_map, hlt, if_true, hd]
  split
  · subst_vars
    simp [hch]
  · rfl

theorem channelIDs_map {f : Channel → Channel} (hf : ∀ ch, (f ch).desc = ch.desc) :
    MConnection.channelIDs ⟨c.channels.map f⟩ = c.channelIDs := by
  simp [channelIDs, hf]

/-- Replacing the channel filed under its ID by one of the same descriptor changes that channel only. -/
theorem channel_set (hi : c.channelIndex ch.desc.id = some i) (hch : c.channels[i]? = some ch)
    (hd : ch'.desc = ch.desc) (k : UInt8) :
    MConnection.channel ⟨c.channels.set i ch'⟩ k = if k = ch.desc.id then some ch' else c.channel k := by
  have hlt : i < c.channels.length := (List.getElem?_eq_some_iff.mp hch).1
  simp only [channel, channelIndex_congr (channelIDs_set hch hd)]
  split
  · subst_vars
    simp [hi, List.getElem?_set_self hlt]
  · cases hj : c.channelIndex k with
    | none => rfl
    | some j =>
      -- The index of another ID is another index.
      have hij : i ≠ j := by
        rintro rfl
        have := channelIDs_of_channelIndex hj
        rw [channelIDs_getElem? hch] at this
        simp_all
      simp [List.getElem?_set_ne hij]

/-- Updating every channel without touching its descriptor updates the channel under each ID. -/
theorem channel_map {f : Channel → Channel} (hf : ∀ ch, (f ch).desc = ch.desc) (k : UInt8) :
    MConnection.channel ⟨c.channels.map f⟩ k = (c.channel k).map f := by
  simp only [channel, channelIndex_congr (channelIDs_map hf)]
  cases c.channelIndex k <;> simp

/-! ### What a step of a connection does -/

theorem send_of_channel (hi : c.channelIndex k = some i) (hch : c.channels[i]? = some ch) (msgBytes : List UInt8) :
    c.send k msgBytes = match ch.sendBytes msgBytes with
      | none => (false, c)
      | some ch' => (true, ⟨c.channels.set i ch'⟩) := by
  simp only [send, hi, hch, Option.bind_some]

theorem send_of_none (hi : c.channelIndex k = none) (msgBytes : List UInt8) : c.send k msgBytes = (false, c) := by
  simp [send, hi]

/-- A round of the send routine either finds no packet pending and only takes the next messages off the
    queues, or writes the next packet of the channel it picks, which has one pending. -/
theorem sendPacketMsg_eq_some {lc : ℕ} {packet : Option PacketMsg} {c' : MConnection}
    (h : c.sendPacketMsg lc = some (packet, c')) :
    (packet = none ∧ (∀ ch ∈ c.channels, ch.isSendPending.1 = false) ∧
      c' = ⟨c.channels.map (·.isSendPending.2)⟩) ∨
    (∃ ch, c.channels[lc]? = some ch ∧ ch.isSendPending.1 = true ∧
      packet = some ch.isSendPending.2.nextPacketMsg.1 ∧
      c' = ⟨(c.channels.map (·.isSendPending.2)).set lc ch.isSendPending.2.nextPacketMsg.2⟩) := by
  unfold sendPacketMsg at h
  simp only [List.map_map] at h
  split at h
  · rename_i hall
    cases h
    refine .inl ⟨rfl, fun ch hch => ?_, rfl⟩
    simpa using List.all_eq_true.mp hall _ (List.mem_map_of_mem hch)
  · split at h
    · rename_i ch₀ hget
      rw [List.getElem?_map, Option.map_eq_some_iff] at hget
      obtain ⟨ch, hch, hp⟩ := hget
      cases h
      have hch₀ : ch.isSendPending.2 = ch₀ := by rw [hp]
      refine .inr ⟨ch, hch, by rw [hp], ?_, ?_⟩
      · rw [hch₀]
      · rw [hch₀]
        rfl
    · cases h

/-- A round that picks a channel with a packet pending writes that channel's next packet. -/
theorem sendPacketMsg_of_pending {lc : ℕ} (hch : c.channels[lc]? = some ch) (hp : ch.isSendPending.1 = true) :
    c.sendPacketMsg lc = some (some ch.isSendPending.2.nextPacketMsg.1,
      ⟨(c.channels.map (·.isSendPending.2)).set lc ch.isSendPending.2.nextPacketMsg.2⟩) := by
  have hpair : ch.isSendPending = (true, ch.isSendPending.2) := Prod.ext hp rfl
  have hsome : ¬(c.channels.map Channel.isSendPending).all (fun p => !p.1) = true := by
    rw [List.all_eq_true]
    intro hall
    have := hall _ (List.mem_map_of_mem (List.mem_of_getElem? hch))
    rw [hp] at this
    cases this
  unfold sendPacketMsg
  simp only [List.map_map]
  rw [if_neg hsome, List.getElem?_map, hch, Option.map_some, hpair]
  rfl

/-- The receive routine hands a packet of a known channel to that channel. -/
theorem recvPacket_of_channel {packet : PacketMsg} (hid : packet.channelID = k.toNat)
    (hi : c.channelIndex k = some i) (hch : c.channels[i]? = some ch) :
    c.recvPacket packet = (ch.recvPacketMsg packet).map fun r => (r.1.map (k, ·), ⟨c.channels.set i r.2⟩) := by
  have hk := UInt8.toNat_lt k
  have hbyte : ((packet.channelID % 256).toNat.toUInt8) = k := by
    rw [hid, Int.emod_eq_of_lt (by omega) (by omega), Int.toNat_natCast]
    exact UInt8.ofNat_toNat
  unfold recvPacket
  rw [if_neg (by omega)]
  simp only [hbyte, hi, Option.bind_some, hch]
  cases ch.recvPacketMsg packet <;> rfl

/-- A `Send` keeps what holds of every channel's descriptor and payload size. -/
theorem send_keeps (P : ChannelDescriptor → ℕ → Prop) (hc : ∀ ch ∈ c.channels, P ch.desc ch.maxPacketMsgPayloadSize)
    (chID : UInt8) (msgBytes : List UInt8) :
    ∀ ch ∈ (c.send chID msgBytes).2.channels, P ch.desc ch.maxPacketMsgPayloadSize := by
  cases hidx : c.channelIndex chID with
  | none =>
    rw [send_of_none hidx]
    exact hc
  | some i =>
    cases hch : c.channels[i]? with
    | none => simpa [send, hidx, hch] using hc
    | some ch =>
      rw [send_of_channel hidx hch]
      cases hsb : ch.sendBytes msgBytes with
      | none => exact hc
      | some ch' =>
        intro x hx
        rcases List.mem_or_eq_of_mem_set hx with hx | rfl
        · exact hc x hx
        · rw [Channel.sendBytes_eq_some hsb]
          exact hc ch (List.mem_of_getElem? hch)

/-- A round of the send routine keeps what holds of every channel's descriptor and payload size. -/
theorem sendPacketMsg_keeps (P : ChannelDescriptor → ℕ → Prop)
    (hc : ∀ ch ∈ c.channels, P ch.desc ch.maxPacketMsgPayloadSize) {lc : ℕ} {packet : Option PacketMsg}
    {c' : MConnection} (h : c.sendPacketMsg lc = some (packet, c')) :
    ∀ ch ∈ c'.channels, P ch.desc ch.maxPacketMsgPayloadSize := by
  rcases sendPacketMsg_eq_some h with ⟨-, -, rfl⟩ | ⟨ch, hch, -, -, rfl⟩
  · intro x hx
    obtain ⟨y, hy, rfl⟩ := List.mem_map.mp hx
    simpa using hc y hy
  · intro x hx
    rcases List.mem_or_eq_of_mem_set hx with hx | rfl
    · obtain ⟨y, hy, rfl⟩ := List.mem_map.mp hx
      simpa using hc y hy
    · simpa using hc ch (List.mem_of_getElem? hch)

end MConnection

/-! ### What a step does to the sender -/

/-- A step that does not stop the receiver is a `Send` of the sender, a round of its send routine, or leaves it
    as it was. -/
theorem Link.step_sender {l l' : Link} {e : Event} (h : l.step e = some (.ok l')) :
    (∃ chID msgBytes, l'.sender = (l.sender.send chID msgBytes).2) ∨
      (∃ lc packet, l.sender.sendPacketMsg lc = some (packet, l'.sender)) ∨ l'.sender = l.sender := by
  cases e with
  | send chID msgBytes =>
    cases h
    exact .inl ⟨chID, msgBytes, rfl⟩
  | sendPacket lc =>
    obtain ⟨⟨packet, sender'⟩, hs, hr⟩ := Option.map_eq_some_iff.mp h
    cases hr
    exact .inr (.inl ⟨lc, packet, hs⟩)
  | recvPacket =>
    -- a read takes the first packet off the wire and changes nothing of the sender
    refine .inr (.inr ?_)
    cases hwire : l.wire with
    | nil =>
      simp only [Link.step, hwire, Option.some.injEq, Except.ok.injEq] at h
      rw [h]
    | cons p ws =>
      simp only [Link.step, hwire, Option.some.injEq] at h
      cases hr : l.receiver.recvPacket p with
      | error err =>
        rw [hr] at h
        cases h
      | ok res =>
        rw [hr] at h
        cases h
        rfl

theorem Link.run_cons_ok {l l' : Link} {e : Event} (h : l.step e = some (.ok l')) (es : List Event) :
    l.run (e :: es) = l'.run es := by
  simp [Link.run, h]

/-- What every step that does not stop the receiver keeps holds after every run that does not stop it. -/
theorem Link.run_of_step (P : Link → Prop) (hstep : ∀ l l' e, l.step e = some (.ok l') → P l → P l')
    {l l' : Link} {es : List Event} (h : l.run es = some (.ok l')) (hl : P l) : P l' := by
  -- By induction on the events; a run that ends well takes only steps that end well.
  induction es generalizing l with
  | nil =>
    simp only [Link.run, Option.some.injEq, Except.ok.injEq] at h
    exact h ▸ hl
  | cons e es ih =>
    rcases hs : l.step e with _ | _ | l₁
    · simp [Link.run, hs] at h
    · simp [Link.run, hs] at h
    · rw [Link.run_cons_ok hs] at h
      exact ih h (hstep l l₁ e hs hl)

/-- What `Send` and every round of the send routine keep of the sender holds after every run that does not
    stop the receiver. -/
theorem Link.run_sender (P : MConnection → Prop) (hsend : ∀ c chID msgBytes, P c → P (c.send chID msgBytes).2)
    (hround : ∀ c lc packet c', c.sendPacketMsg lc = some (packet, c') → P c → P c') {l l' : Link}
    {es : List Event} (h : l.run es = some (.ok l')) (hl : P l.sender) : P l'.sender := by
  refine Link.run_of_step (fun l => P l.sender) (fun l l₁ e hs hP => ?_) h hl
  rcases Link.step_sender hs with ⟨chID, msgBytes, hs⟩ | ⟨lc, packet, hs⟩ | hs
  · exact hs ▸ hsend _ chID msgBytes hP
  · exact hround _ lc packet _ hs hP
  · exact hs ▸ hP

/-! ### An empty message -/

namespace Channel

variable {ch ch' : Channel}

/-- `sendQueueSize` counts a message that is neither queued nor being sent. -/
def Owes (ch : Channel) : Prop :=
  (ch.sendQueue.length : Int) + (if ch.sending = [] then 0 else 1) < ch.sendQueueSize

/-- A channel that owes a message cannot send: `canSend` compares `sendQueueSize` with the default capacity of
    one message. -/
theorem Owes.canSend (h : ch.Owes) : ch.canSend = false := by
  unfold Owes at h
  have hsize : 1 ≤ ch.sendQueueSize := by split at h <;> omega
  simp only [Channel.canSend, defaultSendQueueCapacity]
  exact decide_eq_false (by omega)

theorem Owes.sendBytes {bytes : List UInt8} (h : ch.Owes) (hs : ch.sendBytes bytes = some ch') : ch'.Owes := by
  rw [sendBytes_eq_some hs]
  unfold Owes at h ⊢
  simp only [List.length_append, List.length_singleton]
  omega

/-- Taking the next message off the queue keeps the message owed; an empty one is owed as well from then on. -/
theorem Owes.isSendPending (h : ch.Owes) : ch.isSendPending.2.Owes := by
  rcases isSendPending_cases ch with ⟨-, hp⟩ | ⟨bytes, q, hs, hq, hp⟩ | ⟨-, -, hp⟩
  · rwa [hp]
  · rw [hp]
    unfold Owes at h ⊢
    simp only [hs, hq, if_true, List.length_cons] at h ⊢
    split <;> omega
  · rwa [hp]

/-- A channel that counts two messages more than it queues still owes one after its next packet, which takes
    one off `sendQueueSize` only when it ends a message. -/
theorem owes_nextPacketMsg (h : (ch.sendQueue.length : Int) + 1 < ch.sendQueueSize) : ch.nextPacketMsg.2.Owes := by
  by_cases hle : ch.sending.length ≤ ch.maxPacketMsgPayloadSize
  · rw [nextPacketMsg_of_le hle]
    unfold Owes
    simp only [if_true]
    omega
  · have hlt := Nat.lt_of_not_le hle
    have hrest : ch.sending.drop ch.maxPacketMsgPayloadSize ≠ [] := by
      rw [← List.length_pos_iff, List.length_drop]
      omega
    rw [nextPacketMsg_of_lt hlt]
    unfold Owes
    simp only [hrest, if_false]
    omega

/-- The channel a round picks keeps the message owed through the packet it writes. -/
theorem Owes.nextPacketMsg (h : ch.Owes) (hp : ch.isSendPending.1 = true) : ch.isSendPending.2.nextPacketMsg.2.Owes := by
  apply owes_nextPacketMsg
  rcases isSendPending_cases ch with ⟨hs, hp'⟩ | ⟨bytes, q, hs, hq, hp'⟩ | ⟨-, -, hp'⟩
  · -- a channel that was sending already counts the message being sent
    unfold Owes at h
    rw [if_neg hs] at h
    rwa [hp']
  · unfold Owes at h
    rw [hs, hq, if_pos rfl, List.length_cons] at h
    rw [hp']
    simp only
    omega
  · rw [hp'] at hp
    cases hp

end Channel

namespace MConnection

variable {c c' : MConnection} {i : ℕ} {ch : Channel}

/-- A `Send` keeps the message the channel at `i` owes. -/
theorem owes_send (hch : c.channels[i]? = some ch) (ho : ch.Owes) (chID : UInt8) (msgBytes : List UInt8) :
    ∃ ch', (c.send chID msgBytes).2.channels[i]? = some ch' ∧ ch'.Owes ∧ ch'.desc = ch.desc := by
  cases hidx : c.channelIndex chID with
  | none => exact ⟨ch, by rw [send_of_none hidx]; exact hch, ho, rfl⟩
  | some j =>
    cases hchj : c.channels[j]? with
    | none => exact ⟨ch, by simp [send, hidx, hchj, hch], ho, rfl⟩
    | some chj =>
      rw [send_of_channel hidx hchj]
      cases hsb : chj.sendBytes msgBytes with
      | none => exact ⟨ch, hch, ho, rfl⟩
      | some chj' =>
        by_cases hij : i = j
        · subst hij
          obtain rfl : chj = ch := Option.some.inj (hchj.symm.trans hch)
          have hlt : i < c.channels.length := (List.getElem?_eq_some_iff.mp hch).1
          exact ⟨chj', List.getElem?_set_self hlt, ho.sendBytes hsb, by rw [Channel.sendBytes_eq_some hsb]⟩
        · exact ⟨ch, by rw [List.getElem?_set_ne (Ne.symm hij), hch], ho, rfl⟩

/-- A round of the send routine keeps the message the channel at `i` owes, whichever channel it picks. -/
theorem owes_sendPacketMsg (hch : c.channels[i]? = some ch) (ho : ch.Owes) {lc : ℕ} {packet : Option PacketMsg}
    (h : c.sendPacketMsg lc = some (packet, c')) :
    ∃ ch', c'.channels[i]? = some ch' ∧ ch'.Owes ∧ ch'.desc = ch.desc := by
  rcases sendPacketMsg_eq_some h with ⟨-, -, rfl⟩ | ⟨chl, hchl, hpend, -, rfl⟩
  · exact ⟨ch.isSendPending.2, by simp [hch], ho.isSendPending, by simp⟩
  · by_cases hil : i = lc
    · subst hil
      obtain rfl : chl = ch := Option.some.inj (hchl.symm.trans hch)
      have hlt : i < c.channels.length := (List.getElem?_eq_some_iff.mp hch).1
      exact ⟨_, List.getElem?_set_self (by simpa using hlt), ho.nextPacketMsg hpend, by simp⟩
    · exact ⟨ch.isSendPending.2, by simp [List.getElem?_set_ne (Ne.symm hil), hch], ho.isSendPending, by simp⟩

end MConnection

/-- A channel of the sender that owes a message owes one after every run of the link that does not stop the
    receiver, and keeps its descriptor. -/
theorem Link.run_owes {l l' : Link} {es : List Event} {i : ℕ} {ch : Channel} (hch : l.sender.channels[i]? = some ch)
    (ho : ch.Owes) (h : l.run es = some (.ok l')) :
    ∃ ch', l'.sender.channels[i]? = some ch' ∧ ch'.Owes ∧ ch'.desc = ch.desc := by
  refine Link.run_sender (fun c => ∃ ch', c.channels[i]? = some ch' ∧ ch'.Owes ∧ ch'.desc = ch.desc) ?_ ?_ h
    ⟨ch, hch, ho, rfl⟩
  · rintro c chID msgBytes ⟨ch₁, h₁, ho₁, hd₁⟩
    obtain ⟨ch₂, h₂, ho₂, hd₂⟩ := MConnection.owes_send h₁ ho₁ chID msgBytes
    exact ⟨ch₂, h₂, ho₂, hd₂.trans hd₁⟩
  · rintro c lc packet c₁ hround ⟨ch₁, h₁, ho₁, hd₁⟩
    obtain ⟨ch₂, h₂, ho₂, hd₂⟩ := MConnection.owes_sendPacketMsg h₁ ho₁ hround
    exact ⟨ch₂, h₂, ho₂, hd₂.trans hd₁⟩

/-- A round that picks another channel drops an empty message at the head of a channel's queue: the channel
    is left with the rest of its queue and nothing being sent, so the message never reaches the wire, and
    `sendQueueSize` still counts it. When `sendQueueSize` counted the queue before, it counts a message more
    than the channel queues or sends in every run of the link from then on, so `CanSend` on the channel stays
    false. -/
theorem sendPacketMsg_drops_empty_message {c c' : MConnection} {i lc : ℕ} {ch : Channel}
    {q : List (List UInt8)} {packet : Option PacketMsg}
    (hch : c.channels[i]? = some ch) (hsending : ch.sending = []) (hq : ch.sendQueue = [] :: q) (hne : i ≠ lc)
    (hsize : (ch.sendQueue.length : Int) ≤ ch.sendQueueSize) (h : c.sendPacketMsg lc = some (packet, c')) :
    c'.channels[i]? = some { ch with sendQueue := q } ∧
      ∀ (l l' : Link) (es : List Event), l.sender = c' → l.run es = some (.ok l') →
        ∃ ch', l'.sender.channels[i]? = some ch' ∧ ch'.desc = ch.desc ∧ ch'.Owes ∧ ch'.canSend = false := by
  have hpend : ch.isSendPending = (true, { ch with sendQueue := q }) := by
    rcases Channel.isSendPending_cases ch with ⟨hs, -⟩ | ⟨bytes, q', -, hq', hp⟩ | ⟨-, hq', -⟩
    · exact absurd hsending hs
    · rw [hq] at hq'
      obtain ⟨rfl, rfl⟩ := List.cons.inj hq'
      rw [hp, ← hsending]
    · rw [hq] at hq'
      cases hq'
  have hat : c'.channels[i]? = some { ch with sendQueue := q } := by
    rcases MConnection.sendPacketMsg_eq_some h with ⟨-, hall, rfl⟩ | ⟨ch₀, -, -, -, rfl⟩
    · have := hall ch (List.mem_of_getElem? hch)
      rw [hpend] at this
      cases this
    · simp [List.getElem?_set_ne (Ne.symm hne), hch, hpend]
  -- the dropped message leaves `sendQueueSize` above what the channel queues and sends
  have howes : Channel.Owes { ch with sendQueue := q } := by
    unfold Channel.Owes
    rw [hq, List.length_cons] at hsize
    simp only [hsending, if_true]
    omega
  refine ⟨hat, fun l l' es hl hrun => ?_⟩
  obtain ⟨ch', hch', ho', hd'⟩ := Link.run_owes (hl ▸ hat) howes hrun
  exact ⟨ch', hch', hd', ho', ho'.canSend⟩

/-- Two `Send`s on a new connection, an empty message on channel 1 and `[5]` on channel 2; the round that picks
    channel 2 drops the empty message, and channel 1 can send no more in any run from there. -/
theorem sendPacketMsg_drops_empty_message_twoChannels :
    ((MConnection.mk [⟨⟨1, 1, 1, 22020096⟩, [], 0, [], [], 1024⟩, ⟨⟨2, 1, 1, 22020096⟩, [], 0, [], [], 1024⟩]).send 1
        []).2.send 2 [5] =
      (true, ⟨[⟨⟨1, 1, 1, 22020096⟩, [[]], 1, [], [], 1024⟩, ⟨⟨2, 1, 1, 22020096⟩, [[5]], 1, [], [], 1024⟩]⟩) ∧
    MConnection.sendPacketMsg
        ⟨[⟨⟨1, 1, 1, 22020096⟩, [[]], 1, [], [], 1024⟩, ⟨⟨2, 1, 1, 22020096⟩, [[5]], 1, [], [], 1024⟩]⟩ 1 =
      some (some ⟨2, true, [5]⟩,
        ⟨[⟨⟨1, 1, 1, 22020096⟩, [], 1, [], [], 1024⟩, ⟨⟨2, 1, 1, 22020096⟩, [], 0, [], [], 1024⟩]⟩) ∧
    (MConnection.channels ⟨[⟨⟨1, 1, 1, 22020096⟩, [], 1, [], [], 1024⟩, ⟨⟨2, 1, 1, 22020096⟩, [], 0, [], [], 1024⟩]⟩)[0]? =
      some { (⟨⟨1, 1, 1, 22020096⟩, [[]], 1, [], [], 1024⟩ : Channel) with sendQueue := [] } ∧
    ∀ (l l' : Link) (es : List Event),
      l.sender = ⟨[⟨⟨1, 1, 1, 22020096⟩, [], 1, [], [], 1024⟩, ⟨⟨2, 1, 1, 22020096⟩, [], 0, [], [], 1024⟩]⟩ →
      l.run es = some (.ok l') →
      ∃ ch', l'.sender.channels[0]? = some ch' ∧ ch'.desc = ⟨1, 1, 1, 22020096⟩ ∧ ch'.Owes ∧ ch'.canSend = false :=
  ⟨rfl, rfl, @sendPacketMsg_drops_empty_message
    ⟨[⟨⟨1, 1, 1, 22020096⟩, [[]], 1, [], [], 1024⟩, ⟨⟨2, 1, 1, 22020096⟩, [[5]], 1, [], [], 1024⟩]⟩
    ⟨[⟨⟨1, 1, 1, 22020096⟩, [], 1, [], [], 1024⟩, ⟨⟨2, 1, 1, 22020096⟩, [], 0, [], [], 1024⟩]⟩ 0 1
    ⟨⟨1, 1, 1, 22020096⟩, [[]], 1, [], [], 1024⟩ [] (some ⟨2, true, [5]⟩) rfl rfl rfl (by decide) (by decide) rfl⟩

end Conn

end CometBFT
