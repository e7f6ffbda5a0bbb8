import Tornet.Connection.Channels
import Tornet.Connection.Framing
import Tornet.Udt.AckFormat
import Tornet.Udt.Frames
import Tornet.Udt.Network

/-! The way of a packet from one `udt_channel` to the other: its bytes, the channel numbers before them, and the
encrypted frame around these. -/
namespace Tornet
open Library Runs

namespace MissList

def writeAll (l : MissList) : List UInt8 := UInt8.ofNat l.length :: l.flatMap rangeFormat.pack

/-- What `operator<<` writes is all of what it keeps. -/
theorem write_eq (l : MissList) : l.write = l.wire.writeAll := by
  have hlen : l.wire.length = l.wireLen.toNat := by
    rw [wire_eq_wireLen, List.length_take_of_le l.wireLen_le]
  rw [writeAll, hlen, UInt8.ofNat_toNat, write, writeRanges_eq, wire_eq_wireLen]

private theorem length_wire (l : MissList) : l.wire.length < 256 := by
  rw [wire_eq_wireLen, List.length_take_of_le l.wireLen_le]
  exact l.wireLen.toNat_lt

private theorem read_writeAll {l : MissList} (h : l.length < 256) (rest : List UInt8) :
    read (l.writeAll ++ rest) = some (l, rest) := by
  have hlen : (UInt8.ofNat l.length).toNat = l.length := UInt8.toNat_ofNat_of_lt' h
  have hitems := rangeFormat.items_pack l rest
  rw [← hlen] at hitems
  exact hitems

private theorem length_writeAll (l : MissList) : l.writeAll.length = 1 + 4 * l.length := by
  have hranges : (l.flatMap rangeFormat.pack).length = 4 * l.length := by
    induction l with
    | nil => rfl
    | cons r rest ih =>
      rw [List.flatMap_cons, List.length_append, length_rangeFormat, ih, List.length_cons]
      omega
  rw [writeAll, List.length_cons, hranges, Nat.add_comm]

end MissList

namespace Udt

/-! ### The bytes of a packet -/

/-- The members of an `ack_packet` before its miss list. -/
def AckFields.writeHead (n : AckFields) : List UInt8 :=
  Codec.byte.pack n.flags ++ ((Codec.word 2).pack n.rxWinStart ++ ((Codec.word 2).pack n.rxWinSize ++
    ((Codec.word 2).pack n.rxWinEnd ++ ((Codec.word 2).pack n.ackSeq ++ (Codec.word 8).pack n.utcTime))))

theorem AckFields.write_eq (n : AckFields) : n.write = n.writeHead ++ n.missedSeq.write := by
  simp only [write, writeHead, List.append_assoc]

theorem AckFields.read_head (n : AckFields) (tail : List UInt8) :
    read (n.writeHead ++ tail) = (MissList.read tail).map fun r => ({ n with missedSeq := r.1 }, r.2) := by
  simp only [read, writeHead, List.append_assoc, Codec.unpack_pack, Option.bind_eq_bind, Option.bind_some]
  cases MissList.read tail <;> rfl

/-- `operator<<` of a `nack_packet`. -/
def NackPacket.write (n : NackPacket) : List UInt8 :=
  Codec.byte.pack PacketType.nack.toByte ++ ((Codec.word 2).pack n.rxWinStart ++ ((Codec.word 2).pack n.startSeq ++
    (Codec.word 2).pack n.endSeq))

/-- `operator>>` of a `nack_packet`. -/
def NackPacket.read (bytes : List UInt8) : Option NackPacket := do
  let (_, rest) ← Codec.byte.unpack bytes
  let (rxWinStart, rest) ← (Codec.word 2).unpack rest
  let (startSeq, rest) ← (Codec.word 2).unpack rest
  let (endSeq, _) ← (Codec.word 2).unpack rest
  some { rxWinStart := rxWinStart, startSeq := startSeq, endSeq := endSeq }

theorem NackPacket.read_write (n : NackPacket) : read n.write = some { n with rxWinStartIdx := 0 } := by
  have hend := (Codec.word 2).unpack_pack n.endSeq []
  rw [List.append_nil] at hend
  simp only [read, write, Codec.unpack_pack, hend, Option.bind_eq_bind, Option.bind_some]

/-- What is handed to `channel::send`: `pbuf` of `write`, and the buffers of `send_nack`, `send_ack`, `handle_ack` and
`close`. The miss list of an `ack` datagram is cut already. -/
def Packet.write : Packet → List UInt8
  | .data rxWinStart seq payload _ =>
    Codec.byte.pack PacketType.data.toByte ++ ((Codec.word 2).pack rxWinStart ++ ((Codec.word 2).pack seq ++ payload))
  | .ack p => p.fields.writeHead ++ p.missedSeq.writeAll
  | .nack np => np.write
  | .close => [PacketType.close.toByte]

/-- What `ds >> ap` makes of the members that were read. -/
def AckPacket.ofFields (flags : PacketType) (n : AckFields) : AckPacket where
  flags := flags
  rxWinStart := n.rxWinStart
  rxWinSize := n.rxWinSize
  rxWinEnd := n.rxWinEnd
  ackSeq := n.ackSeq
  utcTime := UInt64.ofBitVec n.utcTime
  missedSeq := n.missedSeq

/-- The switch of `on_recv`, with what its handlers read: `none` where a stream throws, or the type is unknown. -/
def Packet.read (bytes : List UInt8) : Option Packet := do
  let (type, rest) ← Codec.byte.unpack bytes
  if type = PacketType.data.toByte then do
    let (rxWinStart, rest) ← (Codec.word 2).unpack rest
    let (seq, payload) ← (Codec.word 2).unpack rest
    some (.data rxWinStart seq payload 0)
  else if type = PacketType.ack.toByte then (AckFields.read bytes).map fun r => .ack (.ofFields .ack r.1)
  else if type = PacketType.nack.toByte then (NackPacket.read bytes).map .nack
  else if type = PacketType.ack2.toByte then (AckFields.read bytes).map fun r => .ack (.ofFields .ack2 r.1)
  else if type = PacketType.close.toByte then some .close
  else none

def Packet.plain : Packet → Packet
  | .data rxWinStart seq payload _ => .data rxWinStart seq payload 0
  | .ack p => .ack { p with rxWinStartIdx := 0, rxWinEndIdx := 0 }
  | .nack np => .nack { np with rxWinStartIdx := 0 }
  | .close => .close

/-- The packets that an endpoint sends: a payload that one packet can have, an ack or an ack2 with a list that its count
byte can tell. -/
def Packet.Fits : Packet → Prop
  | .data _ _ payload _ => payload.length ≤ maxPayload
  | .ack p => (p.flags = .ack ∨ p.flags = .ack2) ∧ p.missedSeq.length < 256
  | .nack _ | .close => True

/-- The bytes of an ack are those of the `ack_packet` that it was made from. -/
theorem write_ackDatagram (p : AckPacket) : (Channel.ackDatagram p).write = p.fields.write := by
  rw [AckFields.write_eq, AckPacket.fields, MissList.write_eq]
  rfl

private theorem ackDatagram_fits {p : AckPacket} (h : p.flags = .ack ∨ p.flags = .ack2) : (Channel.ackDatagram p).Fits :=
  ⟨h, MissList.length_wire p.missedSeq⟩

private theorem ofFields_fields (p : AckPacket) :
    AckPacket.ofFields p.flags p.fields = { p with rxWinStartIdx := 0, rxWinEndIdx := 0 } := rfl

private theorem read_ack {p : AckPacket} (h : p.missedSeq.length < 256) :
    AckFields.read (Packet.write (.ack p)) = some (p.fields, []) := by
  have hlist := MissList.read_writeAll h []
  rw [List.append_nil] at hlist
  rw [Packet.write, AckFields.read_head, hlist]
  rfl

/-- What is read is the packet that was sent. -/
theorem Packet.read_write {p : Packet} (h : p.Fits) : Packet.read p.write = some p.plain := by
  cases p with
  | data rxWinStart seq payload idx =>
    simp only [read, write, Codec.unpack_pack, Option.bind_eq_bind, Option.bind_some, if_true, plain]
  | ack p =>
    obtain ⟨hflags, hlen⟩ := h
    have hread := read_ack hlen
    have htype : Codec.byte.unpack (write (.ack p)) = some (p.flags.toByte, (write (.ack p)).tail) := rfl
    rw [read, htype, hread]
    rcases hflags with hf | hf
    · rw [hf]
      exact congrArg (fun q => some (Packet.ack q)) (hf ▸ ofFields_fields p)
    · rw [hf]
      exact congrArg (fun q => some (Packet.ack q)) (hf ▸ ofFields_fields p)
  | nack np =>
    have hread := np.read_write
    have htype : Codec.byte.unpack (write (.nack np)) = some (PacketType.nack.toByte, np.write.tail) := rfl
    rw [read, htype]
    exact congrArg (Option.map Packet.nack) hread
  | close => rfl

theorem Packet.length_write {p : Packet} (h : p.Fits) : p.write.length ≤ 1205 := by
  have hmax : maxPayload = 1200 := rfl
  cases p with
  | data rxWinStart seq payload idx =>
    rw [Fits] at h
    simp only [write, Codec.byte, Codec.word, Codec.fixed, List.length_append, List.length_singleton,
      Codec.length_leBytes]
    omega
  | ack p =>
    have hlen := h.2
    simp only [write, AckFields.writeHead, Codec.byte, Codec.word, Codec.fixed, List.length_append,
      List.length_singleton, Codec.length_leBytes, MissList.length_writeAll]
    omega
  | nack np =>
    simp only [write, NackPacket.write, Codec.byte, Codec.word, Codec.fixed, List.length_append, List.length_singleton,
      Codec.length_leBytes]
    omega
  | close => decide

/-! ### What an endpoint sends -/

/-- The packets that a channel may send again have a payload of one packet, and its acks the type of an ack. -/
structure Channel.Fits (c : Channel) : Prop where
  flags : c.rxAckPack.flags = .ack
  held : ∀ d ∈ c.txWin, d.data.length ≤ maxPayload

/-- A handler keeps this, and what it sends fits. -/
structure Outcome.Fits (o : Outcome) : Prop where
  ch : o.ch.Fits
  sent : ∀ pkt ∈ o.sent, pkt.Fits

namespace Channel
variable {c c' : Channel}

theorem Fits.keeps (h : c.Fits) (hk : KeepsTx c c') (hf : c'.rxAckPack.flags = c.rxAckPack.flags) : c'.Fits := by
  refine ⟨hf.trans h.flags, fun d hd => ?_⟩
  obtain ⟨e, he, -, -, hdata⟩ := hk.txWin d hd
  exact hdata ▸ h.held e he

theorem Fits.rx (h : c.Fits) (hk : KeepsTx c c') (hx : SameRx c c') : c'.Fits := by
  obtain ⟨seq, now, hack⟩ := hx.ack
  exact h.keeps hk (by rw [hack])

theorem storeData_sends_nack (dp : DataPacket) (c : Channel) : ∀ pkt ∈ (storeData dp c).sent, ∃ np, pkt = .nack np := by
  intro pkt hpkt
  rw [storeData] at hpkt
  simp only at hpkt
  split_ifs at hpkt <;> simp only [List.mem_singleton, List.not_mem_nil] at hpkt
  exact ⟨_, hpkt⟩

theorem storeData_flags (dp : DataPacket) (c : Channel) : (storeData dp c).ch.rxAckPack.flags = c.rxAckPack.flags := by
  rw [storeData]
  simp only
  split_ifs <;> rfl

theorem Fits.handleData (h : c.Fits) (dp : DataPacket) : (handleData dp c).Fits := by
  constructor
  · refine h.keeps (handleData_keepsTx dp c) ?_
    rw [Channel.handleData, storeData_flags, advanceTx_rxAckPack, startSynTimer_rxAckPack]
  · intro pkt hpkt
    obtain ⟨np, rfl⟩ := storeData_sends_nack dp _ pkt hpkt
    trivial

theorem Fits.handleAck (h : c.Fits) (ap : AckPacket) : (handleAck ap c).Fits := by
  obtain ⟨hk, hx, -⟩ := handleAck_frame ap c
  refine ⟨h.rx hk hx, fun pkt hpkt => ?_⟩
  rw [Channel.handleAck] at hpkt
  simp only at hpkt
  split_ifs at hpkt <;> simp only [List.mem_singleton, List.not_mem_nil] at hpkt <;> rw [hpkt] <;>
    exact ackDatagram_fits (.inr rfl)

theorem Fits.onRecv (h : c.Fits) (pkt : Packet) : (onRecv pkt c).Fits := by
  have hnone {c' : Channel} (hc : c'.Fits) : Outcome.Fits { ch := c' } :=
    ⟨hc, fun pkt hpkt => absurd hpkt List.not_mem_nil⟩
  cases pkt with
  | data rxWinStart seq payload idx => exact h.handleData _
  | ack ap =>
    simp only [Channel.onRecv]
    split
    · exact h.handleAck ap
    · exact hnone ⟨h.flags, h.held⟩
    · exact hnone h
  | nack np =>
    obtain ⟨hk, hx, -⟩ := handleNack_frame np c
    exact ⟨h.rx hk hx, fun pkt hpkt => absurd hpkt (by simp [Channel.onRecv])⟩
  | close => exact hnone h

theorem Fits.close (h : c.Fits) (sendClose : Bool) : (close sendClose c).Fits := by
  refine ⟨⟨h.flags, fun d hd => absurd hd List.not_mem_nil⟩, fun pkt hpkt => ?_⟩
  simp only [Channel.close] at hpkt
  split_ifs at hpkt
  · rw [List.mem_singleton.mp hpkt]
    trivial
  · exact absurd hpkt List.not_mem_nil

theorem Fits.onSyn (h : c.Fits) (now : UInt64) (expired : Bool) : (onSyn now expired c).Fits := by
  cases expired with
  | true =>
    obtain ⟨hs, -, hwin, hack, hk, -⟩ := onSyn_expired_frame now c
    exact ⟨h.keeps hk (by rw [hack]), by simp [hs]⟩
  | false =>
    obtain ⟨hk, -, hx⟩ := onSyn_alive_frame now c
    have hch := h.rx hk hx
    refine ⟨hch, fun pkt hpkt => ?_⟩
    rw [(onSyn_alive_sent now c pkt hpkt).1]
    exact ackDatagram_fits (.inl hch.flags)

theorem Fits.retransmitStep (h : c.Fits) : (retransmitStep c).Fits := by
  obtain ⟨hk, -, hx⟩ := retransmitStep_frame c
  refine ⟨h.rx hk hx, fun pkt hpkt => ?_⟩
  obtain ⟨-, d, hd, rfl⟩ := retransmitStep_sent c pkt hpkt
  exact h.held d hd

end Channel

/-- An endpoint, with the packet that its writer may hold. -/
structure Side.Fits (s : Side) : Prop where
  ch : s.ch.Fits
  blocked : ∀ dp rest w, s.writer = .blocked dp rest w → dp.data.length ≤ maxPayload

/-- Both endpoints, and everything that is on the network. -/
structure Net.Fits (n : Net) : Prop where
  side : ∀ p, (n.side p).Fits
  flight : ∀ p, ∀ pkt ∈ n.flight p, pkt.Fits

variable {n n' : Net} {s : Side}

theorem Side.Fits.after (h : s.Fits) {o : Outcome} (ho : o.Fits) : (s.after o).Fits := by
  refine ⟨ho.ch, fun dp rest w hw => ?_⟩
  rw [Side.after_writer] at hw
  cases hs : s.writer with
  | idle => simp [hs, Writer.wake] at hw
  | running rest' => simp [hs, Writer.wake] at hw
  | blocked dp' rest' w' =>
    have hdp : dp' = dp := by
      cases ht : o.txWinAvail <;> simp only [hs, ht, Writer.wake, Writer.blocked.injEq] at hw <;> exact hw.1
    exact hdp ▸ h.blocked dp' rest' w' hs

/-- A packet of one payload, sent or made to wait. -/
theorem Side.Fits.trySend (h : s.ch.Fits) {dp : DataPacket} (hdp : dp.data.length ≤ maxPayload) (rest : List UInt8) :
    (s.trySend dp rest).1.Fits ∧ ∀ pkt ∈ (s.trySend dp rest).2, pkt.Fits := by
  rw [Side.trySend]
  by_cases hc : s.ch.canSend = true
  · rw [if_pos hc]
    refine ⟨⟨⟨h.flags, fun d hd => ?_⟩, fun dp' rest' w hw => ?_⟩, fun pkt hpkt => ?_⟩
    · rcases List.mem_append.mp hd with hold | hone
      · exact h.held d hold
      · exact List.mem_singleton.mp hone ▸ hdp
    · simp only [Writer.next] at hw
      split_ifs at hw
    · simp only [Channel.sendPacket] at hpkt
      split_ifs at hpkt
      · rw [List.mem_singleton.mp hpkt]
        exact hdp
      · exact absurd hpkt List.not_mem_nil
  · rw [if_neg hc]
    refine ⟨⟨h, fun dp' rest' w hw => ?_⟩, fun pkt hpkt => absurd hpkt List.not_mem_nil⟩
    cases hw
    exact hdp

theorem Net.Fits.put (h : n.Fits) {p : Peer} {sent : List Packet} (hs : s.Fits) (hsent : ∀ pkt ∈ sent, pkt.Fits) :
    (n.put p s sent).Fits := by
  refine ⟨Net.forall_put h.side hs sent, fun q pkt hpkt => ?_⟩
  by_cases hq : q = p
  · subst hq
    rw [Net.put_flight] at hpkt
    rcases List.mem_append.mp hpkt with hold | hnew
    · exact h.flight q pkt hold
    · exact hsent pkt hnew
  · simp only [Net.put, Function.update_of_ne hq] at hpkt
    exact h.flight q pkt hpkt

theorem Net.Fits.flights (h : n.Fits) {p : Peer} {left : List Packet} (hl : ∀ pkt ∈ left, pkt.Fits) :
    ({ n with flight := Function.update n.flight p left } : Net).Fits := by
  refine ⟨h.side, fun q pkt hpkt => ?_⟩
  by_cases hq : q = p
  · subst hq
    simp only [Function.update_self] at hpkt
    exact hl pkt hpkt
  · simp only [Function.update_of_ne hq] at hpkt
    exact h.flight q pkt hpkt

theorem Net.Fits.handle (h : n.Fits) {p : Peer} {o : Outcome} (ho : o.Fits) : (n.handle p o).Fits :=
  h.put ((h.side p).after ho) ho.sent

theorem Net.Fits.quiet (h : n.Fits) {p : Peer} (hch : s.ch.Fits)
    (hw : ∀ dp rest w, s.writer = .blocked dp rest w → (n.side p).writer = .blocked dp rest w) :
    (n.put p s []).Fits :=
  h.put ⟨hch, fun dp rest w hb => (h.side p).blocked dp rest w (hw dp rest w hb)⟩ fun _ hpkt => absurd hpkt List.not_mem_nil

theorem Net.Fits.read (h : n.Fits) {p : Peer} (len : Nat) (got : List UInt8) :
    (n.put p ((n.side p).readMore len got) []).Fits := by
  have hflags (l : List DataPacket) (len : Nat) (ack : AckPacket) :
      (Channel.readLoop ack l len).2.2.2.flags = ack.flags := by
    induction l generalizing len ack with
    | nil => rfl
    | cons d rest ih =>
      simp only [Channel.readLoop]
      split_ifs
      · rfl
      · exact ih _ _
      · rfl
  have hch := (h.side p).ch
  simp only [Side.readMore]
  split_ifs
  · exact h.quiet ⟨(hflags ..).trans hch.flags, hch.held⟩ fun _ _ _ hb => hb
  · exact h.quiet ⟨(hflags ..).trans hch.flags, hch.held⟩ fun _ _ _ hb => hb

/-- Whatever arrives, what is sent fits. -/
theorem Net.Fits.step {e : Event} (h : n.Fits) (hs : n.step e = some n') : n'.Fits := by
  cases Net.takes_of_step hs with
  | @write p bytes _ _ =>
    refine h.quiet (h.side p).ch fun dp rest w hb => ?_
    simp only [Side.startWrite, Writer.next] at hb
    split_ifs at hb
  | @writeNext p rest _ _ =>
    have hpayload : ((n.side p).ch.takePacket (rest.take maxPayload)).2.data.length ≤ maxPayload :=
      List.length_take_le _ _
    obtain ⟨hside, hsent⟩ := Side.Fits.trySend (s := { n.side p with
      ch := ((n.side p).ch.takePacket (rest.take maxPayload)).1,
      chunks := (n.side p).chunks ++ [rest.take maxPayload] }) ⟨(h.side p).ch.flags, (h.side p).ch.held⟩ hpayload
      (rest.drop maxPayload)
    exact h.put hside hsent
  | @writeWake p dp rest _ hb _ =>
    obtain ⟨hside, hsent⟩ := Side.Fits.trySend (h.side p).ch ((h.side p).blocked dp rest true hb) rest
    exact h.put hside hsent
  | @writeThrow p _ _ _ _ _ => exact h.quiet (h.side p).ch fun _ _ _ hb => by cases hb
  | @writeTimeout p _ _ _ _ => exact h.quiet (h.side p).ch fun _ _ _ hb => by cases hb
  | @read p len _ _ => exact h.read (len % 2 ^ 32) []
  | @readWake p len got _ _ _ => exact h.read len got
  | @readThrow p _ _ _ _ _ => exact h.quiet (h.side p).ch fun _ _ _ hb => hb
  | @syn p now expired _ _ => exact h.handle ((h.side p).ch.onSyn now expired)
  | @retransmit p _ _ => exact h.handle (h.side p).ch.retransmitStep
  | @close p _ => exact h.handle ((h.side p).ch.close true)
  | @closeTask p _ _ =>
    have hside := (h.side p).after ((h.side p).ch.close false)
    exact h.put ⟨hside.ch, hside.blocked⟩ fun _ hpkt => absurd hpkt List.not_mem_nil
  | @deliver p i pkt _ hi =>
    have hleft : ({ n with flight := Function.update n.flight p.other ((n.flight p.other).eraseIdx i) } : Net).Fits :=
      h.flights fun q hq => h.flight p.other q (List.mem_of_mem_eraseIdx hq)
    simp only [Net.deliver]
    split_ifs
    · split
      · exact hleft.quiet (h.side p).ch fun _ _ _ hb => hb
      · exact hleft.handle ((h.side p).ch.onRecv pkt)
    · exact hleft
  | @drop p i _ => exact h.flights fun q hq => h.flight p.other q (List.mem_of_mem_eraseIdx hq)
  | @dup p i pkt hi =>
    refine h.flights fun q hq => ?_
    rcases List.mem_append.mp hq with hold | hone
    · exact h.flight p.other q hold
    · exact List.mem_singleton.mp hone ▸ h.flight p.other pkt (List.mem_of_getElem? hi)

theorem Net.Fits.init (mwp : Peer → BitVec 16) : (Net.init mwp).Fits := by
  refine ⟨fun p => ⟨⟨rfl, ?_⟩, ?_⟩, ?_⟩
  · intro d hd
    cases hd
  · intro dp rest w hw
    cases hw
  · intro p pkt hpkt
    cases hpkt

end Udt

/-! ### Down to the frame and up again -/

namespace Connection

/-- `connection::send` of a buffer on a channel: the number of the channel here, and of that there. -/
def Channels.Impl.message (i : Channels.Impl) (b : Bytes) : Bytes :=
  (Codec.word 2).pack i.lport ++ ((Codec.word 2).pack i.rport ++ b)

/-- What `handle_data_msg` reads: the key it looks up, and what it hands to the channel. -/
def readMessage (payload : Bytes) : Option (BitVec 32 × Bytes) := do
  let (src, rest) ← (Codec.word 2).unpack payload
  let (dst, rest) ← (Codec.word 2).unpack rest
  some (Channels.keyOf dst src, rest)

private theorem length_message (i : Channels.Impl) (b : Bytes) : (i.message b).length = 4 + b.length := by
  simp only [Channels.Impl.message, Codec.word, Codec.fixed, List.length_append, Codec.length_leBytes]
  omega

private theorem readMessage_message (i : Channels.Impl) (b : Bytes) :
    readMessage (i.message b) = some (Channels.keyOf i.rport i.lport, b) := by
  simp only [readMessage, Channels.Impl.message, Codec.unpack_pack, Option.bind_eq_bind, Option.bind_some]

theorem message_readable {pkt : Udt.Packet} (h : pkt.Fits) (i : Channels.Impl) : (i.message pkt.write).length ≤ 2044 := by
  have hwrite := Udt.Packet.length_write h
  rw [length_message]
  omega

/-- A connected end takes a data frame under its key for data, and does nothing else with it. -/
theorem handlePacket_data (K : Crypto) {payload key b : Bytes} (hp : payload.length ≤ 2044) (hmod : b.length % 8 = 0)
    (hdec : K.decrypt key b = plainFrame K .data payload) {c : Conn} (hbf : c.bf = some key)
    (hc : c.curState = .connected) (fuel : Nat) :
    handlePacket K (fuel + 1) b c = (do
      Eff.modify fun c => { c with record := { c.record with lastContact := c.env.now } }
      external : Handler Unit) c := by
  set c' : Conn := { c with record := { c.record with lastContact := c.env.now } } with hc'
  have hmsg : decodePacket K b c =
      (dispatch K .data payload (payload.headD 0) >>= fun ok => pure (ok, plainFrame K .data payload)) c' := by
    rw [decodePacket_frame K .data hp hdec hbf, Eff.modify_bind_apply]
  have hdata : handleDataMsg K c' = (external >>= fun _ => pure true) c' := by
    have hstate : c'.curState = .connected := hc
    rw [handleDataMsg, Eff.get_bind_apply, if_pos hstate]
  rw [handlePacket, Eff.get_bind_apply, hc, Eff.modify_bind_apply]
  show handleConnected K (fuel + 1) b c = external c'
  rw [handleConnected, tryDecode, if_pos hmod]
  rcases hext : external c' with ⟨_ | _, t⟩
  · have herror : handleDataMsg K c' = (.error _, t) := hdata.trans (Eff.bind_error hext)
    exact Eff.bind_error (hmsg.trans (Eff.bind_error herror))
  · have hok : handleDataMsg K c' = (.ok true, t) := hdata.trans (Eff.bind_ok hext)
    exact (Eff.bind_ok (hmsg.trans (Eff.bind_ok hok))).trans rfl

/-- In every run of two channels over any network: every packet on the network goes through `connection::send` as one
datagram; a connection with the same key takes it for data, finds the other end of the channel by its numbers, and what
this gets is read as the packet that was sent. -/
theorem packets_arrive (K : Crypto) (encrypt : Bytes → Bytes → Bytes) (key : Bytes)
    (hlen : ∀ p, (encrypt key p).length = p.length)
    (hinv : ∀ p, p.length % 8 = 0 → K.decrypt key (encrypt key p) = p) (mwp : Udt.Peer → BitVec 16)
    (es : List Udt.Event) (n : Udt.Net) (hrun : run Udt.Net.step (Udt.Net.init mwp) es = some n) (p : Udt.Peer)
    (pkt : Udt.Packet) (hpkt : pkt ∈ n.flight p) (i j : Channels.Impl) (hports : j.lport = i.rport ∧ j.rport = i.lport)
    (c : Conn) (hbf : c.bf = some key) (hc : c.curState = .connected) (r fuel : Nat) :
    let b := (Outgoing.frame .data (i.message pkt.write) key).datagram K encrypt r
    let d := K.decrypt key b
    (i.message pkt.write).length ≤ 2044 ∧ b.length ≤ 2048 ∧
      handlePacket K (fuel + 1) b c = (do
        Eff.modify fun c => { c with record := { c.record with lastContact := c.env.now } }
        external : Handler Unit) c ∧
      (payloadOf d ((d.getD 3 0).toNat % 8)).bind readMessage = some (j.key, pkt.write) ∧
      Udt.Packet.read pkt.write = some pkt.plain := by
  intro b d
  have hfits : pkt.Fits := (invariant_of_step Udt.Net.Fits (fun _ _ _ => Udt.Net.Fits.step) (.init mwp) hrun).flight p
    pkt hpkt
  have hp := message_readable hfits i
  obtain ⟨hmod, -, hmax⟩ := plainFrame_bounds K .data (i.message pkt.write) hp
  have hb : b.length = (plainFrame K .data (i.message pkt.write)).length := hlen _
  have hd : d = plainFrame K .data (i.message pkt.write) := hinv _ hmod
  refine ⟨hp, hb ▸ hmax, handlePacket_data K hp (hb ▸ hmod) hd hbf hc fuel, ?_, Udt.Packet.read_write hfits⟩
  rw [hd, plainFrame_payload K .data (i.message pkt.write) hp, Option.bind_some, readMessage_message,
    Channels.Impl.key, hports.1, hports.2]

/-- The first packet of three bytes on a channel from 1000 to 7, as it is hashed. -/
def dataPlain : Bytes := [120, 97, 21, 0, 232, 3, 7, 0, 0, 1, 0, 1, 0, 1, 2, 3]

/-- The same two blocks under the Blowfish key of the bytes 1 to 56. -/
def dataCipher : Bytes := [234, 71, 104, 79, 157, 70, 7, 217, 185, 171, 203, 44, 51, 78, 116, 219]

def dataSwap (key b : Bytes) : Bytes :=
  if key ≠ rankKey then b else if b = dataPlain then dataCipher else if b = dataCipher then dataPlain else b

def dataCrypto : Crypto := { xorCrypto with superFastHash := fun _ => 0xf3156178, decrypt := dataSwap }

private theorem dataSwap_length (p : Bytes) : (dataSwap rankKey p).length = p.length := by
  rw [dataSwap]
  split_ifs with hk hp hc
  · rfl
  · rw [hp]
    rfl
  · rw [hc]
    rfl
  · rfl

private theorem dataSwap_swap (p : Bytes) : dataSwap rankKey (dataSwap rankKey p) = p := by
  by_cases hp : p = dataPlain
  · subst hp
    decide
  by_cases hc : p = dataCipher
  · subst hc
    decide
  have hself : dataSwap rankKey p = p := by
    rw [dataSwap]
    rw [if_neg (by simp), if_neg hp, if_neg hc]
  rw [hself, hself]

def dataConn : Conn := { rankConn with curState := .connected }

theorem packets_arrive_first : ∃ n,
    run Udt.Net.step (Udt.Net.init fun _ => 4096) [.write .a [1, 2, 3], .writeNext .a] = some n ∧
    n.flight .a = [.data 1 1 [1, 2, 3] 1] ∧
    handlePacket dataCrypto 1 dataCipher dataConn = (do
      Eff.modify fun c => { c with record := { c.record with lastContact := c.env.now } }
      external : Handler Unit) dataConn ∧
    (payloadOf dataPlain ((dataPlain.getD 3 0).toNat % 8)).bind readMessage =
      some (Channels.keyOf 7 1000, [0, 1, 0, 1, 0, 1, 2, 3]) := by
  have hflight : (run Udt.Net.step (Udt.Net.init fun _ => 4096) [.write .a [1, 2, 3], .writeNext .a]).map
      (fun n => n.flight .a) = some [.data 1 1 [1, 2, 3] 1] := by decide +kernel
  obtain ⟨n, hrun, hsent⟩ := Option.map_eq_some_iff.mp hflight
  have hmem : Udt.Packet.data 1 1 [1, 2, 3] 1 ∈ n.flight .a := by simp [hsent]
  have harrive := packets_arrive dataCrypto dataSwap rankKey dataSwap_length (fun p _ => dataSwap_swap p) _ _ n hrun .a _
    hmem ⟨7, 1000, true, false, true⟩ ⟨1000, 7, true, false, true⟩ ⟨rfl, rfl⟩ dataConn rfl rfl 0 0
  obtain ⟨-, -, hhandled, hread, -⟩ := harrive
  exact ⟨n, hrun, hsent, hhandled, hread⟩

end Connection
end Tornet
