import Tornet.Udt.Network
import Tornet.Udt.Window

/-! The invariant of one direction of a channel: what the sender has numbered, what
is on the wire in both directions, and what the receiver holds and has returned. -/
namespace Tornet.Udt
open Library

/-- The payload that was given count `i`. -/
def chunkAt (chunks : List (List UInt8)) (i : Nat) : List UInt8 := chunks.getD (i - 1) []

namespace Writer

/-- The bytes of the current call that have no sequence number yet. -/
def rest : Writer → List UInt8
  | .idle => []
  | .running rest => rest
  | .blocked _ rest _ => rest

@[simp] theorem rest_wake (b : Bool) (w : Writer) : (w.wake b).rest = w.rest := by
  cases w <;> cases b <;> rfl

theorem rest_next (rest : List UInt8) : (next rest).rest = rest := by
  rw [next]
  split_ifs with h
  · exact h.symm
  · rfl

end Writer

/-- The bytes a blocked `read` has copied so far. -/
def Reader.got : Reader → List UInt8
  | .idle => []
  | .blocked _ got _ => got

@[simp] theorem Reader.got_wake (b : Bool) (r : Reader) : (r.wake b).got = r.got := by
  cases r <;> cases b <;> rfl

/-- Every count up to here may have been sent; a blocked packet has not. -/
def Side.top (s : Side) : Nat :=
  match s.writer with
  | .blocked .. => s.chunks.length - 1
  | _ => s.chunks.length

theorem Side.top_le (s : Side) : s.top ≤ s.chunks.length := by
  rw [top]
  split <;> omega

@[simp] theorem Side.top_after (s : Side) (o : Outcome) : (s.after o).top = s.top := by
  unfold top after
  cases s.writer <;> cases o.txWinAvail <;> rfl

theorem top_next {s : Side} {rest : List UInt8} (h : s.writer = Writer.next rest) :
    s.top = s.chunks.length := by
  unfold Writer.next at h
  rw [Side.top]
  split_ifs at h <;> simp only [h]

theorem readMore_rest (s : Side) (len : Nat) (got : List UInt8) :
    (s.readMore len got).top = s.top ∧ (s.readMore len got).ch.chan = s.ch.chan := by
  rw [Side.readMore]
  simp only
  split_ifs <;> exact ⟨rfl, rfl⟩

/-- A data packet as its writer made it, inside the window of the receiver: `start` and
`size` are the receiver's window, `lost` is the first count whose `write` gave up. -/
structure Genuine (chunks : List (List UInt8)) (top start size : Nat) (lost : Option Nat)
    (seq : SeqNum) (data : List UInt8) (idx : Nat) : Prop where
  seq : seq = seqOf idx
  pos : 1 ≤ idx
  le : idx ≤ top
  data : data = chunkAt chunks idx
  window : idx ≤ start + size
  zero : size = 0 → idx ≤ 1
  sent : lost ≠ some idx

/-- The sending half of an endpoint, facing a receive window at `start` of `size`. -/
structure TxOk (s : Side) (start size : Nat) (lost : Option Nat) : Prop where
  nextSeq : s.ch.nextTxSeq = seqOf s.ch.nextTxIdx
  nextLen : s.chunks.length = s.ch.nextTxIdx
  ackSeq : s.ch.lastRxAck.rxWinStart = seqOf s.ch.lastRxAck.rxWinStartIdx
  ackLe : s.ch.lastRxAck.rxWinStartIdx ≤ start
  win : s.ch.txWinSize.toNat ≤ max 1 size
  zero : size = 0 → s.ch.startUp = true ∧
    ((s.ch.lastRxAck.rxWinStartIdx = 1 ∧ s.ch.txWinSize.toNat = 1) ∨ s.ch.txWinSize.toNat = 0)
  held : s.ch.chan = true → ∀ d ∈ s.ch.txWin,
    Genuine s.chunks s.top start size lost d.seq d.data d.idx
  blocked : ∀ dp rest w, s.writer = .blocked dp rest w →
    dp.idx = s.ch.nextTxIdx ∧ dp.seq = seqOf dp.idx ∧ dp.data = chunkAt s.chunks dp.idx ∧ 1 ≤ dp.idx
  intact : lost = none → s.chunks.flatten ++ s.writer.rest = s.passed
  broken : ∀ m, lost = some m → m ≤ s.top ∧ (s.chunks.take m).flatten <+: s.passed

/-- The receiving half of an endpoint, for a stream whose packets are `chunks`. -/
structure RxOk (t : Side) (chunks : List (List UInt8)) (top : Nat) (lost : Option Nat)
    (passed : List UInt8) : Prop where
  pos : 1 ≤ t.ch.rxAckPack.rxWinStartIdx
  startLe : t.ch.rxAckPack.rxWinStartIdx ≤ t.ch.rxAckPack.rxWinEndIdx + 1
  endLe : t.ch.rxAckPack.rxWinEndIdx ≤ top
  small : t.ch.rxAckPack.rxWinSize.toNat ≤ 4096
  zero : t.ch.rxAckPack.rxWinSize.toNat = 0 → t.ch.rxAckPack.rxWinEndIdx ≤ 1
  flags : t.ch.rxAckPack.flags = .ack
  lostLe : ∀ m, lost = some m → t.ch.rxAckPack.rxWinStartIdx ≤ m
  delivered : t.returned ++ t.reader.got <+: passed
  closed : t.ch.chan = false → t.ch.rxWin = []
  window : t.ch.chan = true → RxWindow t.ch.rxAckPack t.ch.rxWin
  held : ∀ d ∈ t.ch.rxWin, d.idx ≤ top ∧ lost ≠ some d.idx
  stream : t.ch.chan = true → ∃ pre,
    WinData (chunkAt chunks) pre t.ch.rxAckPack.rxWinStartIdx t.ch.rxWin ∧
      t.returned ++ t.reader.got =
        streamBefore (chunkAt chunks) t.ch.rxAckPack.rxWinStartIdx ++ pre

def DataOk (chunks : List (List UInt8)) (top start size : Nat) (lost : Option Nat) : Packet → Prop
  | .data _ seq payload idx => Genuine chunks top start size lost seq payload idx
  | _ => True

/-- A datagram from the receiver: an ack reports a window start that was reached. -/
def AckOk (start : Nat) (size : BitVec 16) : Packet → Prop
  | .ack ap => ap.flags = .ack →
    ap.rxWinStart = seqOf ap.rxWinStartIdx ∧ ap.rxWinStartIdx ≤ start ∧ ap.rxWinSize = size
  | .nack _ => size.toNat ≠ 0
  | _ => True

/-- The invariant of the direction from `p` to the other endpoint. -/
structure Lane (n : Net) (p : Peer) (lost : Option Nat) : Prop where
  tx : TxOk (n.side p) (n.side p.other).ch.rxAckPack.rxWinStartIdx
    (n.side p.other).ch.rxAckPack.rxWinSize.toNat lost
  rx : RxOk (n.side p.other) (n.side p).chunks (n.side p).top lost (n.side p).passed
  data : ∀ pkt ∈ n.flight p, DataOk (n.side p).chunks (n.side p).top
    (n.side p.other).ch.rxAckPack.rxWinStartIdx
    (n.side p.other).ch.rxAckPack.rxWinSize.toNat lost pkt
  acks : ∀ pkt ∈ n.flight p.other, AckOk (n.side p.other).ch.rxAckPack.rxWinStartIdx
    (n.side p.other).ch.rxAckPack.rxWinSize pkt

theorem chunkAt_append {chunks more : List (List UInt8)} {i : Nat} (hpos : 1 ≤ i)
    (hi : i ≤ chunks.length) : chunkAt (chunks ++ more) i = chunkAt chunks i := by
  unfold chunkAt
  rw [List.getD_eq_getElem?_getD, List.getElem?_append_left (by omega), List.getD_eq_getElem?_getD]

theorem chunkAt_last (chunks : List (List UInt8)) (payload : List UInt8) :
    chunkAt (chunks ++ [payload]) (chunks.length + 1) = payload := by
  simp [chunkAt]

/-- Bytes up to a count are the flattened list of the payloads up to it. -/
theorem streamBefore_chunkAt (chunks : List (List UInt8)) {n : Nat} (hn : n ≤ chunks.length) :
    streamBefore (chunkAt chunks) (n + 1) = (chunks.take n).flatten := by
  induction n with
  | zero => simp [streamBefore]
  | succ n ih =>
    rw [streamBefore_succ _ (by omega), ih (by omega), List.take_add_one, List.flatten_append]
    congr 1
    rw [chunkAt]
    rw [Nat.add_sub_cancel, List.getD_eq_getElem?_getD]
    rw [List.getElem?_eq_getElem (by omega)]
    simp

theorem Genuine.mono {chunks : List (List UInt8)} {top top' start start' size : Nat}
    {lost lost' : Option Nat} {seq : SeqNum} {data : List UInt8} {idx : Nat}
    (h : Genuine chunks top start size lost seq data idx) (more : List (List UInt8))
    (hchunks : top ≤ chunks.length) (htop : top ≤ top') (hstart : start ≤ start')
    (hlost : lost' = lost ∨ ∃ m, lost' = some m ∧ top < m) :
    Genuine (chunks ++ more) top' start' size lost' seq data idx where
  seq := h.seq
  pos := h.pos
  le := h.le.trans htop
  data := by rw [chunkAt_append h.pos (h.le.trans hchunks)]; exact h.data
  window := by have := h.window; omega
  zero := h.zero
  sent := by
    rcases hlost with rfl | ⟨m, rfl, hm⟩
    · exact h.sent
    · have := h.le
      simp only [ne_eq, Option.some.injEq]
      omega

end Tornet.Udt
