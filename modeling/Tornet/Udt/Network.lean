import Mathlib.Logic.Function.Basic
import Tornet.Library.Runs
import Tornet.Udt.Channel

/-! Two endpoints, their application fibers, and a network that may lose, duplicate
and reorder datagrams. One event is one uninterrupted stretch of code on one node
thread, or one action of the network. -/
namespace Tornet.Udt

inductive Peer where
  | a | b
  deriving DecidableEq, Repr

def Peer.other : Peer → Peer
  | .a => .b
  | .b => .a

theorem Peer.other_ne (p : Peer) : p.other ≠ p := by cases p <;> decide

@[simp] theorem Peer.other_other (p : Peer) : p.other.other = p := by cases p <;> rfl

/-- The fiber inside `udt_channel::write`: bytes still to be packed, or a packet
whose sequence number is taken and that waits on `tx_win_avail`. -/
inductive Writer where
  | idle
  | running (rest : List UInt8)
  | blocked (dp : DataPacket) (rest : List UInt8) (woken : Bool)
  deriving DecidableEq, Repr

/-- The fiber inside `udt_channel::read`, waiting on `rx_win_avail` with the bytes it
has copied so far. -/
inductive Reader where
  | idle
  | blocked (len : Nat) (got : List UInt8) (woken : Bool)
  deriving DecidableEq, Repr

/-- One endpoint with its fibers. The last three fields are history variables: the
bytes handed to `write`, the payloads given a sequence number, and the bytes
returned by completed `read` calls. -/
structure Side where
  ch : Channel
  writer : Writer := .idle
  reader : Reader := .idle
  closeTask : Bool := false
  passed : List UInt8 := []
  chunks : List (List UInt8) := []
  returned : List UInt8 := []

/-- Both endpoints; `flight p` holds the datagrams sent by `p` and not yet gone. -/
structure Net where
  side : Peer → Side
  flight : Peer → List Packet

def Net.init (mwp : Peer → BitVec 16) : Net where
  side p := { ch := Channel.init (mwp p) }
  flight _ := []

inductive Event where
  | write (p : Peer) (bytes : List UInt8)
  | writeNext (p : Peer)
  | writeWake (p : Peer)
  | writeTimeout (p : Peer)
  | read (p : Peer) (len : Nat)
  | readWake (p : Peer)
  | syn (p : Peer) (now : UInt64) (expired : Bool)
  | retransmit (p : Peer)
  | close (p : Peer)
  | closeTask (p : Peer)
  | deliver (p : Peer) (i : Nat)
  | drop (p : Peer) (i : Nat)
  | dup (p : Peer) (i : Nat)
  deriving DecidableEq, Repr

/-- The largest payload of a packet, `uint32_t(1200)` in `write`. -/
def maxPayload : Nat := 1200

namespace Writer

def wake : Bool → Writer → Writer
  | true, .blocked dp rest _ => .blocked dp rest true
  | _, w => w

/-- What is left to do after a packet was sent. -/
def next (rest : List UInt8) : Writer := if rest = [] then .idle else .running rest

end Writer

def Reader.wake : Bool → Reader → Reader
  | true, .blocked len got _ => .blocked len got true
  | _, r => r

namespace Side

/-- The effect of a handler on its own endpoint; the signals wake the blocked fibers. -/
def after (s : Side) (o : Outcome) : Side :=
  { s with
    ch := o.ch, writer := s.writer.wake o.txWinAvail, reader := s.reader.wake o.rxWinAvail }

theorem after_writer (s : Side) (o : Outcome) : (s.after o).writer = s.writer.wake o.txWinAvail := rfl

/-- `write` entered: the length is kept in a `uint32_t`. -/
def startWrite (bytes : List UInt8) (s : Side) : Side :=
  { s with
    writer := Writer.next (bytes.take (bytes.length % 2 ^ 32)), passed := s.passed ++ bytes }

/-- Send the packet whose number is taken, or wait for window space. On a freed
channel the send throws out of `write`. -/
def trySend (dp : DataPacket) (rest : List UInt8) (s : Side) : Side × List Packet :=
  if s.ch.canSend then
    let r := s.ch.sendPacket dp
    ({ s with ch := r.1, writer := if s.ch.chan then Writer.next rest else .idle }, r.2)
  else ({ s with writer := .blocked dp rest false }, [])

/-- One turn of the loop of `write`, up to its `yield` or its first wait. -/
def writeNext (rest : List UInt8) (s : Side) : Side × List Packet :=
  let payload := rest.take maxPayload
  let r := s.ch.takePacket payload
  trySend r.2 (rest.drop maxPayload) { s with ch := r.1, chunks := s.chunks ++ [payload] }

/-- Run the copy loop of `read` from what has been copied so far. -/
def readMore (len : Nat) (got : List UInt8) (s : Side) : Side :=
  let r := Channel.readLoop s.ch.rxAckPack s.ch.rxWin len
  let s := { s with ch := { s.ch with rxWin := r.2.2.1, rxAckPack := r.2.2.2 } }
  if r.2.1 = 0 then { s with reader := .idle, returned := s.returned ++ (got ++ r.1) }
  else { s with reader := .blocked r.2.1 (got ++ r.1) false }

end Side

namespace Net

/-- Replace the state of endpoint `p` and put what it sent on the wire. -/
def put (n : Net) (p : Peer) (s : Side) (sent : List Packet) : Net where
  side := Function.update n.side p s
  flight := Function.update n.flight p (n.flight p ++ sent)

def handle (n : Net) (p : Peer) (o : Outcome) : Net := n.put p ((n.side p).after o) o.sent

/-- The datagram is taken off the wire and handed to `on_recv`; a freed channel has no
receive handler any more. -/
def deliver (n : Net) (p : Peer) (pkt : Packet) (left : List Packet) : Net :=
  let n := { n with flight := Function.update n.flight p.other left }
  if (n.side p).ch.chan then
    match pkt with
    | .close => n.put p { n.side p with closeTask := true } []
    | pkt => n.handle p ((n.side p).ch.onRecv pkt)
  else n

/-- One step; an event whose fiber, task or datagram does not exist is disabled, and
so is everything on an endpoint whose process has exited. -/
def step (n : Net) (e : Event) : Option Net :=
  match e with
  | .write p bytes =>
    if (n.side p).ch.exited then none
    else match (n.side p).writer with
      | .idle => some (n.put p ((n.side p).startWrite bytes) [])
      | _ => none
  | .writeNext p =>
    if (n.side p).ch.exited then none
    else match (n.side p).writer with
      | .running rest =>
        let r := (n.side p).writeNext rest
        some (n.put p r.1 r.2)
      | _ => none
  | .writeWake p =>
    if (n.side p).ch.exited then none
    else match (n.side p).writer with
      | .blocked dp rest true =>
        -- woken: a freed channel throws, otherwise `can_send` is tested again
        if (n.side p).ch.chan then
          let r := (n.side p).trySend dp rest
          some (n.put p r.1 r.2)
        else some (n.put p { n.side p with writer := .idle } [])
      | _ => none
  | .writeTimeout p =>
    if (n.side p).ch.exited then none
    else match (n.side p).writer with
      | .blocked _ _ false => some (n.put p { n.side p with writer := .idle } [])
      | _ => none
  | .read p len =>
    if (n.side p).ch.exited then none
    else match (n.side p).reader with
      | .idle => some (n.put p ((n.side p).readMore (len % 2 ^ 32) []) [])
      | _ => none
  | .readWake p =>
    if (n.side p).ch.exited then none
    else match (n.side p).reader with
      | .blocked len got true =>
        if (n.side p).ch.chan then some (n.put p ((n.side p).readMore len got) [])
        else some (n.put p { n.side p with reader := .idle } [])
      | _ => none
  | .syn p now expired =>
    if (n.side p).ch.exited then none
    else if (n.side p).ch.synTask then some (n.handle p ((n.side p).ch.onSyn now expired))
    else none
  | .retransmit p =>
    if (n.side p).ch.exited then none
    else if (n.side p).ch.retranTask then some (n.handle p ((n.side p).ch.retransmitStep))
    else none
  | .close p =>
    if (n.side p).ch.exited then none
    else some (n.handle p ((n.side p).ch.close true))
  | .closeTask p =>
    if (n.side p).ch.exited then none
    else if (n.side p).closeTask then
      some (n.put p { (n.side p).after ((n.side p).ch.close false) with closeTask := false } [])
    else none
  | .deliver p i =>
    if (n.side p).ch.exited then none
    else ((n.flight p.other)[i]?).map fun pkt =>
      n.deliver p pkt ((n.flight p.other).eraseIdx i)
  | .drop p i =>
    if i < (n.flight p.other).length then
      some { n with flight := Function.update n.flight p.other ((n.flight p.other).eraseIdx i) }
    else none
  | .dup p i =>
    ((n.flight p.other)[i]?).map fun pkt =>
      { n with flight := Function.update n.flight p.other (n.flight p.other ++ [pkt]) }

/-- All a step can do: one case for each way an event is taken. -/
inductive Takes (n : Net) : Event → Net → Prop
  | write {p bytes} (live : (n.side p).ch.exited = false) (idle : (n.side p).writer = .idle) :
    Takes n (.write p bytes) (n.put p ((n.side p).startWrite bytes) [])
  | writeNext {p rest} (live : (n.side p).ch.exited = false) (running : (n.side p).writer = .running rest) :
    Takes n (.writeNext p) (n.put p ((n.side p).writeNext rest).1 ((n.side p).writeNext rest).2)
  | writeWake {p dp rest} (live : (n.side p).ch.exited = false) (blocked : (n.side p).writer = .blocked dp rest true)
    (chan : (n.side p).ch.chan = true) :
    Takes n (.writeWake p) (n.put p ((n.side p).trySend dp rest).1 ((n.side p).trySend dp rest).2)
  | writeThrow {p dp rest} (live : (n.side p).ch.exited = false) (blocked : (n.side p).writer = .blocked dp rest true)
    (freed : (n.side p).ch.chan = false) : Takes n (.writeWake p) (n.put p { n.side p with writer := .idle } [])
  | writeTimeout {p dp rest} (live : (n.side p).ch.exited = false)
    (blocked : (n.side p).writer = .blocked dp rest false) :
    Takes n (.writeTimeout p) (n.put p { n.side p with writer := .idle } [])
  | read {p len} (live : (n.side p).ch.exited = false) (idle : (n.side p).reader = .idle) :
    Takes n (.read p len) (n.put p ((n.side p).readMore (len % 2 ^ 32) []) [])
  | readWake {p len got} (live : (n.side p).ch.exited = false) (blocked : (n.side p).reader = .blocked len got true)
    (chan : (n.side p).ch.chan = true) : Takes n (.readWake p) (n.put p ((n.side p).readMore len got) [])
  | readThrow {p len got} (live : (n.side p).ch.exited = false) (blocked : (n.side p).reader = .blocked len got true)
    (freed : (n.side p).ch.chan = false) : Takes n (.readWake p) (n.put p { n.side p with reader := .idle } [])
  | syn {p now expired} (live : (n.side p).ch.exited = false) (task : (n.side p).ch.synTask = true) :
    Takes n (.syn p now expired) (n.handle p ((n.side p).ch.onSyn now expired))
  | retransmit {p} (live : (n.side p).ch.exited = false) (task : (n.side p).ch.retranTask = true) :
    Takes n (.retransmit p) (n.handle p ((n.side p).ch.retransmitStep))
  | close {p} (live : (n.side p).ch.exited = false) : Takes n (.close p) (n.handle p ((n.side p).ch.close true))
  | closeTask {p} (live : (n.side p).ch.exited = false) (task : (n.side p).closeTask = true) :
    Takes n (.closeTask p)
      (n.put p { (n.side p).after ((n.side p).ch.close false) with closeTask := false } [])
  | deliver {p i pkt} (live : (n.side p).ch.exited = false) (sent : (n.flight p.other)[i]? = some pkt) :
    Takes n (.deliver p i) (n.deliver p pkt ((n.flight p.other).eraseIdx i))
  | drop {p i} (sent : i < (n.flight p.other).length) :
    Takes n (.drop p i) { n with flight := Function.update n.flight p.other ((n.flight p.other).eraseIdx i) }
  | dup {p i pkt} (sent : (n.flight p.other)[i]? = some pkt) :
    Takes n (.dup p i) { n with flight := Function.update n.flight p.other (n.flight p.other ++ [pkt]) }

/-- Case by case on the event, then on the guards `step` tests. -/
theorem takes_of_step {n n' : Net} {e : Event} (h : n.step e = some n') : Takes n e n' := by
  cases e with
  | write p bytes =>
    simp only [step] at h
    split_ifs at h with hx
    split at h
    · rename_i hidle
      cases h
      exact .write (by simpa using hx) hidle
    · cases h
  | writeNext p =>
    simp only [step] at h
    split_ifs at h with hx
    split at h
    · rename_i hrun
      cases h
      exact .writeNext (by simpa using hx) hrun
    · cases h
  | writeWake p =>
    simp only [step] at h
    split_ifs at h with hx hc
    · split at h
      · rename_i hb
        cases h
        exact .writeWake (by simpa using hx) hb hc
      · cases h
    · split at h
      · rename_i hb
        cases h
        exact .writeThrow (by simpa using hx) hb (by simpa using hc)
      · cases h
  | writeTimeout p =>
    simp only [step] at h
    split_ifs at h with hx
    split at h
    · rename_i hb
      cases h
      exact .writeTimeout (by simpa using hx) hb
    · cases h
  | read p len =>
    simp only [step] at h
    split_ifs at h with hx
    split at h
    · rename_i hidle
      cases h
      exact .read (by simpa using hx) hidle
    · cases h
  | readWake p =>
    simp only [step] at h
    split_ifs at h with hx hc
    · split at h
      · rename_i hb
        cases h
        exact .readWake (by simpa using hx) hb hc
      · cases h
    · split at h
      · rename_i hb
        cases h
        exact .readThrow (by simpa using hx) hb (by simpa using hc)
      · cases h
  | syn p now expired =>
    simp only [step] at h
    split_ifs at h with hx ht
    cases h
    exact .syn (by simpa using hx) ht
  | retransmit p =>
    simp only [step] at h
    split_ifs at h with hx ht
    cases h
    exact .retransmit (by simpa using hx) ht
  | close p =>
    simp only [step] at h
    split_ifs at h with hx
    cases h
    exact .close (by simpa using hx)
  | closeTask p =>
    simp only [step] at h
    split_ifs at h with hx ht
    cases h
    exact .closeTask (by simpa using hx) ht
  | deliver p i =>
    simp only [step] at h
    split_ifs at h with hx
    obtain ⟨pkt, hi, rfl⟩ := Option.map_eq_some_iff.mp h
    exact .deliver (by simpa using hx) hi
  | drop p i =>
    simp only [step] at h
    split_ifs at h with hi
    cases h
    exact .drop hi
  | dup p i =>
    obtain ⟨pkt, hi, rfl⟩ := Option.map_eq_some_iff.mp h
    exact .dup hi

@[simp] theorem put_side (n : Net) (p : Peer) (s : Side) (sent : List Packet) :
    (n.put p s sent).side p = s := Function.update_self ..

@[simp] theorem put_side_other (n : Net) (p : Peer) (s : Side) (sent : List Packet) :
    (n.put p s sent).side p.other = n.side p.other := Function.update_of_ne p.other_ne ..

@[simp] theorem put_flight (n : Net) (p : Peer) (s : Side) (sent : List Packet) :
    (n.put p s sent).flight p = n.flight p ++ sent := Function.update_self ..

@[simp] theorem put_flight_other (n : Net) (p : Peer) (s : Side) (sent : List Packet) :
    (n.put p s sent).flight p.other = n.flight p.other := Function.update_of_ne p.other_ne ..

@[simp] theorem put_put (n : Net) (p : Peer) (s s' : Side) (sent sent' : List Packet) :
    (n.put p s sent).put p s' sent' = n.put p s' (sent ++ sent') := by
  simp [Net.put, List.append_assoc]

/-- A fact about one endpoint, where one of them moves. -/
theorem put_at {P : Side → Prop} {n : Net} {p q : Peer} {s : Side} (h : P (n.side q)) (hs : p = q → P s) (sent : List Packet) :
    P ((n.put p s sent).side q) := by
  by_cases hq : q = p
  · subst hq
    rw [put_side]
    exact hs rfl
  · simp only [put, Function.update_of_ne hq]
    exact h

/-- The same where a datagram arrives. -/
theorem deliver_at {P : Side → Prop} {n : Net} {p q : Peer} {pkt : Packet} (h : P (n.side q)) (left : List Packet)
    (hclose : p = q → P { n.side p with closeTask := true })
    (hrecv : p = q → (n.side p).ch.chan = true → P ((n.side p).after ((n.side p).ch.onRecv pkt))) :
    P ((n.deliver p pkt left).side q) := by
  have hw : P (({ n with flight := Function.update n.flight p.other left } : Net).side q) := h
  simp only [deliver]
  split_ifs with hc
  · split
    · exact put_at hw hclose _
    · exact put_at hw (fun hq => hrecv hq hc) _
  · exact hw

theorem forall_put {P : Side → Prop} {n : Net} (h : ∀ q, P (n.side q)) {p : Peer} {s : Side} (hs : P s) (sent : List Packet) :
    ∀ q, P ((n.put p s sent).side q) :=
  fun q => put_at (h q) (fun _ => hs) sent

theorem forall_deliver {P : Side → Prop} {n : Net} (h : ∀ q, P (n.side q)) {p : Peer} {pkt : Packet} (left : List Packet)
    (hclose : P { n.side p with closeTask := true })
    (hrecv : (n.side p).ch.chan = true → P ((n.side p).after ((n.side p).ch.onRecv pkt))) :
    ∀ q, P ((n.deliver p pkt left).side q) :=
  fun q => deliver_at (h q) left (fun _ => hclose) (fun _ => hrecv)

/-- Taking a datagram off the wire first or last makes no difference: the endpoint that
gets it only adds to the other direction. -/
theorem put_offWire (n : Net) (p : Peer) (s : Side) (sent left : List Packet) :
    ({ n with flight := Function.update n.flight p.other left } : Net).put p s sent =
      { n.put p s sent with flight := Function.update (n.put p s sent).flight p.other left } := by
  simp only [Net.put, Function.update_of_ne p.other_ne.symm, Function.update_comm p.other_ne]

end Net

/-- No data packet arrives once the receiver's `rx_win_end` has moved
`2^15 - rx_win_size` or more past its number. -/
def YoungData (n : Net) : Event → Prop
  | .deliver p i => ∀ w seq payload idx, (n.flight p.other)[i]? = some (.data w seq payload idx) →
    (n.side p).ch.rxAckPack.rxWinEndIdx < idx + (2 ^ 15 - (n.side p).ch.rxAckPack.rxWinSize.toNat)
  | _ => True

/-- Where `can_send` lets a packet go, the number taken for it is less than half the
number space ahead of the window start last acknowledged. -/
def SendNear (c : Channel) : Prop :=
  c.canSend = true → c.nextTxIdx < c.lastRxAck.rxWinStartIdx + 2 ^ 15

/-- The sending side stays in the range of its own arithmetic: a `write` is counted by
a 32-bit length, a packet is sent only when `can_send` compares numbers that are
less than half the number space apart. -/
def SendsInRange (n : Net) : Event → Prop
  | .write _ bytes => bytes.length < 2 ^ 32
  | .writeNext p => SendNear ((n.side p).ch.takePacket []).1
  | .writeWake p => SendNear (n.side p).ch
  | _ => True

instance (n : Net) : (e : Event) → Decidable (YoungData n e)
  | .deliver p i =>
    match h : (n.flight p.other)[i]? with
    | some (.data _ _ _ idx) =>
      decidable_of_iff ((n.side p).ch.rxAckPack.rxWinEndIdx <
          idx + (2 ^ 15 - (n.side p).ch.rxAckPack.rxWinSize.toNat))
        ⟨fun hlt _ _ _ _ hd => by cases h.symm.trans hd; exact hlt, fun hy => hy _ _ _ _ h⟩
    | some (.ack _) | some (.nack _) | some .close | none =>
      isTrue fun _ _ _ _ hd => nomatch h.symm.trans hd
  | .write .. | .writeNext _ | .writeWake _ | .writeTimeout _ | .read .. | .readWake _ | .syn ..
  | .retransmit _ | .close _ | .closeTask _ | .drop .. | .dup .. => isTrue trivial

instance (c : Channel) : Decidable (SendNear c) := inferInstanceAs (Decidable (_ → _))

instance (n : Net) : (e : Event) → Decidable (SendsInRange n e)
  | .write _ bytes => inferInstanceAs (Decidable (bytes.length < 2 ^ 32))
  | .writeNext p => inferInstanceAs (Decidable (SendNear ((n.side p).ch.takePacket []).1))
  | .writeWake p => inferInstanceAs (Decidable (SendNear (n.side p).ch))
  | .writeTimeout _ | .read .. | .readWake _ | .syn .. | .retransmit _ | .close _ | .closeTask _
  | .deliver .. | .drop .. | .dup .. => isTrue trivial

end Tornet.Udt
