import Tornet.MissList

/-! `udt_channel_private`: the packets, the state of one endpoint and its handlers.
Clock values are inputs; tasks posted to the node thread are flags of the state. -/
namespace Tornet.Udt

/-- `packet::types`. -/
inductive PacketType where
  | data | ack | nack | ack2 | close
  deriving DecidableEq, Repr

/-- `data_packet`. The index is a history variable that no branch reads: the
packet's position in the sender's numbering, before it is cut to 16 bits. -/
structure DataPacket where
  rxWinStart : SeqNum
  seq : SeqNum
  data : List UInt8
  lastSentAckSeq : SeqNum := 0
  idx : Nat
  deriving DecidableEq, Repr

/-- `ack_packet`, with history variables for the two window ends. -/
structure AckPacket where
  flags : PacketType := .ack
  rxWinStart : SeqNum := 0
  rxWinSize : BitVec 16 := 0
  rxWinEnd : SeqNum := 0
  ackSeq : SeqNum := 0
  utcTime : UInt64 := 0
  missedSeq : MissList := []
  rxWinStartIdx : Nat := 0
  rxWinEndIdx : Nat := 0
  deriving DecidableEq, Repr

/-- `nack_packet`, with a history variable for the window start. -/
structure NackPacket where
  rxWinStart : SeqNum
  startSeq : SeqNum
  endSeq : SeqNum
  rxWinStartIdx : Nat := 0
  deriving DecidableEq, Repr

/-- A datagram of the channel. An `ack` datagram is a serialised `ack_packet`; its
flags byte tells acks from ack2s. -/
inductive Packet where
  | data (rxWinStart seq : SeqNum) (payload : List UInt8) (idx : Nat)
  | ack (p : AckPacket)
  | nack (p : NackPacket)
  | close
  deriving DecidableEq, Repr

/-- The state of `udt_channel_private`. `chan` is `static_cast<bool>(chan)`;
`synTask` and `retranTask` say that the scheduled `on_syn` and the asynchronous
`retransmit(true)` exist; `exited` records the `exit(1)` of `retransmit`. -/
structure Channel where
  remoteRxWin : BitVec 16
  txWinSize : BitVec 16
  txMissList : MissList
  lastRxAck : AckPacket
  rxAckPack : AckPacket
  txAck2Pack : AckPacket
  rxAck2Pack : AckPacket
  startUp : Bool
  decOnNack : Bool
  startedRetran : Bool
  retransmitting : Bool
  synTimerRunning : Bool
  nextTxSeq : SeqNum
  mStopSynTimer : Bool
  rxWin : List DataPacket
  txWin : List DataPacket
  chan : Bool
  synTask : Bool
  retranTask : Bool
  exited : Bool
  nextTxIdx : Nat
  deriving DecidableEq, Repr

/-- The constructor `udt_channel_private( c, mwp )`. -/
def Channel.init (mwp : BitVec 16) : Channel where
  remoteRxWin := 1
  txWinSize := 1
  txMissList := []
  lastRxAck := { rxWinStart := 1, rxWinEnd := 0, rxWinSize := 1, rxWinStartIdx := 1 }
  rxAckPack := { rxWinStart := 1, rxWinEnd := 0, rxWinSize := mwp, rxWinStartIdx := 1 }
  txAck2Pack := { rxWinStart := 1 }
  rxAck2Pack := {}
  startUp := true
  decOnNack := true
  startedRetran := false
  retransmitting := false
  synTimerRunning := false
  nextTxSeq := 0
  mStopSynTimer := false
  rxWin := []
  txWin := []
  chan := true
  synTask := false
  retranTask := false
  exited := false
  nextTxIdx := 0

/-- What a handler leaves: the new state, the datagrams handed to the channel, and
whether it fired the signals a blocked writer or reader waits for. -/
structure Outcome where
  ch : Channel
  sent : List Packet := []
  txWinAvail : Bool := false
  rxWinAvail : Bool := false

namespace Channel

/-- `can_send`. -/
def canSend (c : Channel) : Bool :=
  SeqNum.lt c.nextTxSeq (c.lastRxAck.rxWinStart + c.txWinSize)

def stopSynTimer (c : Channel) : Channel := { c with mStopSynTimer := true }

def startSynTimer (c : Channel) : Channel :=
  if c.synTimerRunning then { c with mStopSynTimer := false }
  else { c with mStopSynTimer := false, synTask := true, synTimerRunning := true }

/-- `close( send_close )`. The pending `tx_miss_list` is left as it is. -/
def close (sendClose : Bool) (c : Channel) : Outcome where
  ch := { c with
    chan := false, rxWin := [], txWin := [],
    rxAckPack := { c.rxAckPack with missedSeq := [] } }
  sent := if sendClose && c.chan then [.close] else []
  txWinAvail := true
  rxWinAvail := true

/-- `retransmit( false )`: post the task unless one is queued or running. -/
def retransmit (c : Channel) : Channel :=
  if c.retransmitting || c.startedRetran then c
  else { c with startedRetran := true, retranTask := true }

/-- The datagram `send( i->data.subbuf( -5 ) )` resends, header and payload as first sent. -/
def dataPacket (d : DataPacket) : Packet := .data d.rxWinStart d.seq d.data d.idx

/-- One turn of the loop of `retransmit( true )`. The first turn also clears
`started_retran`. A sequence number outside `tx_win` ends the process. -/
def retransmitStep (c : Channel) : Outcome :=
  let c := { c with retransmitting := true, startedRetran := false }
  match c.txMissList.popFront with
  | none => { ch := { c with retransmitting := false, retranTask := false } }
  | some (sq, rest) =>
    let c := { c with txMissList := rest }
    match c.txWin.find? (fun d => d.seq == sq) with
    | none => { ch := { c with exited := true, retranTask := false } }
    | some d =>
      if SeqNum.lt (d.lastSentAckSeq + 2) c.txAck2Pack.ackSeq then
        let c := { c with
          txWin := c.txWin.modify (c.txWin.findIdx (fun e => e.seq == sq))
            (fun e => { e with lastSentAckSeq := c.txAck2Pack.ackSeq + 1 }) }
        -- a freed channel makes `send` throw, which ends the task inside its loop
        if c.chan then { ch := c, sent := [dataPacket d] }
        else { ch := { c with retranTask := false } }
      else { ch := c }

/-- `advance_tx`. -/
def advanceTx (rxWinStart : SeqNum) (c : Channel) : Channel :=
  let before (d : DataPacket) : Bool := SeqNum.lt d.seq rxWinStart
  { c with
    txAck2Pack := { c.txAck2Pack with
      rxWinStart := rxWinStart,
      missedSeq := (c.txWin.takeWhile before).foldl (fun m d => m.remove d.seq)
        c.txAck2Pack.missedSeq }
    txWin := c.txWin.dropWhile before }

/-- The serialised form of an `ack_packet`: the miss list is cut to what the wire carries. -/
def ackDatagram (p : AckPacket) : Packet := .ack { p with missedSeq := p.missedSeq.wire }

def nackDatagram (c : Channel) (stSeq endSeq : SeqNum) : Packet :=
  .nack {
    rxWinStart := c.rxAckPack.rxWinStart, startSeq := stSeq, endSeq := endSeq,
    rxWinStartIdx := c.rxAckPack.rxWinStartIdx }

/-- Insert before the first packet that is not `<` the new one. -/
def insertSorted (dp : DataPacket) : List DataPacket → List DataPacket
  | [] => [dp]
  | d :: rest => if SeqNum.lt d.seq dp.seq then d :: insertSorted dp rest else dp :: d :: rest

def scanStop (dp : DataPacket) (l : List DataPacket) : Option DataPacket :=
  l.find? fun d => !SeqNum.lt d.seq dp.seq

/-- The part of `handle_data` behind `advance_tx`: bookkeeping of the receive window. -/
def storeData (dp : DataPacket) (c : Channel) : Outcome :=
  let ack := { c.rxAckPack with missedSeq := c.rxAckPack.missedSeq.remove dp.seq }
  let c := { c with rxAckPack := ack }
  let limit := ack.rxWinStart + ack.rxWinSize
  let avail (c : Channel) : Bool := !c.rxWin.isEmpty && dp.seq == c.rxAckPack.rxWinStart
  if dp.seq = ack.rxWinEnd + 1 then
    if SeqNum.gt dp.seq limit then { ch := c }
    else
      let c := { c with
        rxWin := c.rxWin ++ [dp],
        rxAckPack := { ack with rxWinEnd := dp.seq, rxWinEndIdx := dp.idx } }
      { ch := c, rxWinAvail := avail c }
  else if SeqNum.gt dp.seq (ack.rxWinEnd + 1) then
    if SeqNum.gt dp.seq limit then { ch := c }
    else
      let sr := ack.rxWinEnd + 1
      let c := { c with
        rxWin := c.rxWin ++ [dp],
        rxAckPack := { ack with
          rxWinEnd := dp.seq, rxWinEndIdx := dp.idx,
          missedSeq := ack.missedSeq.add sr (dp.seq - 1) } }
      { ch := c, sent := [nackDatagram c sr (dp.seq - 1)], rxWinAvail := avail c }
  else if SeqNum.lt dp.seq ack.rxWinStart then { ch := c }
  else if (scanStop dp c.rxWin).any (fun d => d.seq == dp.seq) then { ch := c }
  else
    let c := { c with
      rxWin := insertSorted dp c.rxWin,
      rxAckPack := { ack with missedSeq := ack.missedSeq.remove dp.seq } }
    { ch := c, rxWinAvail := avail c }

/-- `handle_data`. -/
def handleData (dp : DataPacket) (c : Channel) : Outcome :=
  let c := advanceTx dp.rxWinStart (startSynTimer c)
  let o := storeData dp c
  { o with txWinAvail := canSend c }

/-- The congestion window an ack leaves: multiplicative growth up to the first nack,
then one packet per ack, always up to the advertised window. -/
def grownWindow (startUp : Bool) (txWinSize remoteRxWin : BitVec 16) : BitVec 16 :=
  if startUp then
    let grown : BitVec 16 := BitVec.ofNat 16 (txWinSize.toNat * 3 / 2 + 1)
    if remoteRxWin < grown then remoteRxWin else grown
  else if txWinSize < remoteRxWin then txWinSize + 1
  else txWinSize

/-- `handle_ack`. -/
def handleAck (ap : AckPacket) (c : Channel) : Outcome :=
  let c := { c with decOnNack := true, txMissList := ap.missedSeq }
  let couldSend := canSend c
  let c := if ap.missedSeq.size ≠ 0 then retransmit c else c
  let c := { c with
    remoteRxWin := ap.rxWinSize,
    txWinSize := grownWindow c.startUp c.txWinSize ap.rxWinSize }
  let c := if SeqNum.ge ap.ackSeq c.lastRxAck.ackSeq then { c with lastRxAck := ap } else c
  let c := advanceTx ap.rxWinStart c
  let avail := canSend c
  let c := { c with txAck2Pack := { c.txAck2Pack with
    flags := .ack2, rxWinStart := c.nextTxSeq, utcTime := ap.utcTime, ackSeq := ap.ackSeq } }
  { ch := c, sent := if couldSend then [ackDatagram c.txAck2Pack] else [], txWinAvail := avail }

/-- The congestion window a nack leaves: three quarters of it during start-up, nine
tenths later, never zero. -/
def shrunkWindow (startUp : Bool) (txWinSize : BitVec 16) : BitVec 16 :=
  let n := if startUp then txWinSize.toNat * 3 / 4 else txWinSize.toNat * 9 / 10
  if n = 0 then 1 else BitVec.ofNat 16 n

/-- `handle_nack`. -/
def handleNack (np : NackPacket) (c : Channel) : Outcome :=
  let c := advanceTx np.rxWinStart c
  let avail := canSend c
  let c := if c.decOnNack then
      { c with
        decOnNack := false, txWinSize := shrunkWindow c.startUp c.txWinSize, startUp := false }
    else c
  let c := { c with txMissList := c.txMissList.add np.startSeq np.endSeq }
  { ch := retransmit c, txWinAvail := avail }

/-- `handle_ack2`. -/
def handleAck2 (ap : AckPacket) (c : Channel) : Channel := stopSynTimer { c with rxAck2Pack := ap }

/-- `send_ack`: the state after it and the datagram. -/
def sendAck (now : UInt64) (c : Channel) : Channel × Packet :=
  let ack := { c.rxAckPack with ackSeq := c.rxAckPack.ackSeq + 1, utcTime := now }
  ({ c with rxAckPack := ack }, ackDatagram ack)

/-- `on_syn`. `expired` tells that nothing was received for five seconds. On a freed
channel `send_ack` throws and the handler only logs, so nothing is rescheduled. -/
def onSyn (now : UInt64) (expired : Bool) (c : Channel) : Outcome :=
  let c := { c with synTask := false }
  if expired then
    let o := close false c
    { o with ch := { o.ch with synTimerRunning := false, mStopSynTimer := false } }
  else
    let (c, ack) := sendAck now c
    if c.chan then
      if c.mStopSynTimer then
        { ch := { c with synTimerRunning := false, mStopSynTimer := false }, sent := [ack] }
      else { ch := { c with synTask := true }, sent := [ack] }
    else { ch := c }

/-- `on_recv` for everything but a close packet, which only posts `close()`. -/
def onRecv (p : Packet) (c : Channel) : Outcome :=
  match p with
  | .data rxWinStart seq payload idx =>
    handleData { rxWinStart := rxWinStart, seq := seq, data := payload, idx := idx } c
  | .ack ap =>
    match ap.flags with
    | .ack => handleAck ap c
    | .ack2 => { ch := handleAck2 ap c }
    | _ => { ch := c }
  | .nack np => handleNack np c
  | .close => { ch := c }

/-- The copy loop of `udt_channel::read` up to the point where it returns or waits:
the bytes copied, what is still wanted, and the window it leaves. -/
def readLoop (ack : AckPacket) : List DataPacket → Nat → List UInt8 × Nat × List DataPacket × AckPacket
  | [], len => ([], len, [], ack)
  | d :: rest, len =>
    if len = 0 ∨ d.seq ≠ ack.rxWinStart then ([], len, d :: rest, ack)
    else
      let clen := min len d.data.length
      if d.data.length - clen = 0 then
        let ack' := { ack with
          rxWinStart := ack.rxWinStart + 1, rxWinStartIdx := ack.rxWinStartIdx + 1 }
        let r := readLoop ack' rest (len - clen)
        (d.data.take clen ++ r.1, r.2.1, r.2.2.1, r.2.2.2)
      else (d.data.take clen, len - clen, { d with data := d.data.drop clen } :: rest, ack)

/-- The head of the loop of `udt_channel::write`: take the next sequence number and
build the packet. It happens before the writer knows whether it may send. -/
def takePacket (payload : List UInt8) (c : Channel) : Channel × DataPacket :=
  let c := { c with nextTxSeq := c.nextTxSeq + 1, nextTxIdx := c.nextTxIdx + 1 }
  (c, {
    rxWinStart := c.rxAckPack.rxWinStart, seq := c.nextTxSeq, data := payload,
    lastSentAckSeq := c.txAck2Pack.ackSeq - 5, idx := c.nextTxIdx })

/-- The tail of that loop, once `can_send` holds: queue the packet for
retransmission and send it. -/
def sendPacket (dp : DataPacket) (c : Channel) : Channel × List Packet :=
  ({ c with
      txAck2Pack := { c.txAck2Pack with missedSeq := c.txAck2Pack.missedSeq.add dp.seq dp.seq },
      txWin := c.txWin ++ [dp] },
    if c.chan then [dataPacket dp] else [])

end Channel
end Tornet.Udt
