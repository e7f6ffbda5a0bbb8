import Tornet.Library.Codec
import Tornet.Library.Runs
import Tornet.Udt.Network

/-! `raw_rpc` over one channel: messages, the calls of `send` that are under way, and the bytes the
peer reads. -/
namespace Tornet.Rpc
open Library Runs Udt

/-- `rpc_message`. -/
structure RpcMessage where
  id : UInt16
  type : UInt8
  method : UInt32
  data : List UInt8
  deriving DecidableEq, Repr

/-- What the `read_loop` takes from the bytes that are there, with `fc::raw` as the codec; it waits
where a message is not complete. -/
def readLoop (C : Codec RpcMessage) : Nat → List UInt8 → List RpcMessage
  | 0, _ => []
  | fuel + 1, bytes =>
    if bytes = [] then []
    else match C.unpack bytes with
      | none => []
      | some (m, rest) => m :: readLoop C fuel rest

/-- How far a call of `send` has come inside `udt_channel::write`: between two packets, with a packet
that waits for window space, returned, or left by an exception. -/
inductive Progress where
  | running (rest : List UInt8) (begun : Bool)
  | blocked (dp : DataPacket) (rest : List UInt8)
  | completed
  | failed
  deriving DecidableEq, Repr

/-- One call of `raw_rpc::send`. -/
structure Call where
  msg : RpcMessage
  progress : Progress
  deriving DecidableEq, Repr

/-- Some packets of the message have their numbers, and others have not. -/
def Progress.mid : Progress → Bool
  | .running _ begun => begun
  | .blocked _ rest => rest ≠ []
  | .completed | .failed => false

/-- One endpoint with its calls, in the order they were made. The last two fields are history
variables: the payloads by number, and the packets handed to the network. -/
structure Sender where
  ch : Channel
  calls : List Call := []
  chunks : List (List UInt8) := []
  sent : List DataPacket := []

def Sender.init (mwp : BitVec 16) : Sender := { ch := Channel.init mwp }

/-- What happens: a call of `send`, the next packet of a call, a wake-up or the end of its wait for
window space, and everything else the channel does. -/
inductive Event where
  | send (m : RpcMessage)
  | next (i : Nat)
  | wake (i : Nat)
  | giveUp (i : Nat)
  | recv (p : Packet)
  | syn (now : UInt64) (expired : Bool)
  | retransmit
  | close
  deriving DecidableEq, Repr

/-- A call with `rest` still to be packed; it returns when there is nothing. -/
def Progress.after (rest : List UInt8) (begun : Bool) : Progress :=
  if rest = [] then .completed else .running rest begun

namespace Sender

def put (s : Sender) (i : Nat) (c : Call) : Sender := { s with calls := s.calls.set i c }

/-- `raw_rpc::send`: the length is kept in a `uint32_t`. -/
def send (C : Codec RpcMessage) (s : Sender) (m : RpcMessage) : Sender :=
  let dat := C.pack m
  { s with calls := s.calls ++ [{ msg := m, progress := .after (dat.take (dat.length % 2 ^ 32)) false }] }

/-- Send the packet whose number is taken, or wait; on a freed channel the send throws. -/
def trySend (s : Sender) (i : Nat) (m : RpcMessage) (dp : DataPacket) (rest : List UInt8) : Sender :=
  if s.ch.canSend then
    if s.ch.chan then
      { s with ch := (s.ch.sendPacket dp).1, sent := s.sent ++ [dp] }.put i ⟨m, .after rest true⟩
    else { s with ch := (s.ch.sendPacket dp).1 }.put i ⟨m, .failed⟩
  else s.put i ⟨m, .blocked dp rest⟩

/-- One turn of the loop of `write`. -/
def next (s : Sender) (i : Nat) (m : RpcMessage) (rest : List UInt8) : Sender :=
  let payload := rest.take maxPayload
  let r := s.ch.takePacket payload
  { s with ch := r.1, chunks := s.chunks ++ [payload] }.trySend i m r.2 (rest.drop maxPayload)

end Sender

/-- One event; `none` where the call is not at that point. -/
def step (C : Codec RpcMessage) (s : Sender) : Event → Option Sender
  | .send m => some (s.send C m)
  | .next i =>
    match s.calls[i]? with
    | some ⟨m, .running rest _⟩ => some (s.next i m rest)
    | _ => none
  | .wake i =>
    match s.calls[i]? with
    | some ⟨m, .blocked dp rest⟩ => some (s.trySend i m dp rest)
    | _ => none
  | .giveUp i =>
    match s.calls[i]? with
    | some ⟨m, .blocked _ _⟩ => some (s.put i ⟨m, .failed⟩)
    | _ => none
  | .recv p => some { s with ch := (Channel.onRecv p s.ch).ch }
  | .syn now expired => some { s with ch := (Channel.onSyn now expired s.ch).ch }
  | .retransmit => some { s with ch := (Channel.retransmitStep s.ch).ch }
  | .close => some { s with ch := (Channel.close true s.ch).ch }

/-- The channel's promise: the peer gets the payloads in the order of the numbers, up to the
first number that was not sent. -/
def delivered (sent : List DataPacket) : Nat → Nat → List UInt8
  | 0, _ => []
  | fuel + 1, k =>
    match sent.find? (fun dp => dp.idx = k) with
    | none => []
    | some dp => dp.data ++ delivered sent fuel (k + 1)

/-- The bytes the peer can read; numbers start with 1. -/
def Sender.stream (s : Sender) : List UInt8 := delivered s.sent s.chunks.length 1

end Tornet.Rpc
