import Tornet.Udt.Frames
import Tornet.Udt.TxWindow
import Tornet.Udt.Window

/-! Two endpoints over a network that neither loses nor reorders: each direction is a queue, the receive windows have no
gaps, and nothing is sent again. -/
namespace Tornet.Udt
open Library Runs

/-! ### The wire -/

/-- The wire towards a receiver that has got number `e`: each data packet has the next number or repeats the last one, up to
number `top`, and nothing asks for a packet again. -/
inductive Queue : Nat → List Packet → Nat → Prop
  | nil {e} : Queue e [] e
  | next {e top w payload rest} (tail : Queue (e + 1) rest top) :
    Queue e (.data w (seqOf (e + 1)) payload (e + 1) :: rest) top
  | again {e top w payload rest} (pos : 1 ≤ e) (tail : Queue e rest top) : Queue e (.data w (seqOf e) payload e :: rest) top
  | ack {e top ap rest} (missed : ap.flags = .ack → ap.missedSeq = []) (tail : Queue e rest top) :
    Queue e (.ack ap :: rest) top
  | close {e top rest} (tail : Queue e rest top) : Queue e (.close :: rest) top

def fresh : Nat → List Packet → List UInt8
  | _, [] => []
  | e, .data _ _ payload idx :: rest => if idx = e + 1 then payload ++ fresh (e + 1) rest else fresh e rest
  | e, .ack _ :: rest => fresh e rest
  | e, .nack _ :: rest => fresh e rest
  | e, .close :: rest => fresh e rest

/-- The acks on the wire: the window starts they report only grow, from `lo` to `hi`. -/
inductive Acks (size : BitVec 16) : Nat → List Packet → Nat → Prop
  | nil {lo} : Acks size lo [] lo
  | ack {lo hi ap rest} (flags : ap.flags = .ack) (seq : ap.rxWinStart = seqOf ap.rxWinStartIdx)
    (same : ap.rxWinSize = size) (le : lo ≤ ap.rxWinStartIdx) (tail : Acks size ap.rxWinStartIdx rest hi) :
    Acks size lo (.ack ap :: rest) hi
  | skip {lo hi pkt rest} (other : ∀ ap, pkt = .ack ap → ap.flags ≠ .ack) (tail : Acks size lo rest hi) :
    Acks size lo (pkt :: rest) hi

section
variable {e mid top lo hi : Nat} {size : BitVec 16} {l l' : List Packet} {pkt : Packet}

theorem Queue.le (h : Queue e l top) : e ≤ top := by
  induction h with
  | nil => exact Nat.le_refl _
  | next _ ih => exact (Nat.le_succ _).trans ih
  | again _ _ ih => exact ih
  | ack _ _ ih => exact ih
  | close _ ih => exact ih

theorem Queue.append (h : Queue e l mid) (h' : Queue mid l' top) : Queue e (l ++ l') top := by
  induction h with
  | nil => exact h'
  | next _ ih => exact .next (ih h')
  | again pos _ ih => exact .again pos (ih h')
  | ack missed _ ih => exact .ack missed (ih h')
  | close _ ih => exact .close (ih h')

theorem Queue.split (h : Queue e (l ++ l') top) : ∃ mid, Queue e l mid ∧ Queue mid l' top := by
  induction l generalizing e with
  | nil => exact ⟨e, .nil, h⟩
  | cons pkt l ih =>
    cases h with
    | next tail =>
      obtain ⟨mid, hl, hl'⟩ := ih tail
      exact ⟨mid, .next hl, hl'⟩
    | again pos tail =>
      obtain ⟨mid, hl, hl'⟩ := ih tail
      exact ⟨mid, .again pos hl, hl'⟩
    | ack missed tail =>
      obtain ⟨mid, hl, hl'⟩ := ih tail
      exact ⟨mid, .ack missed hl, hl'⟩
    | close tail =>
      obtain ⟨mid, hl, hl'⟩ := ih tail
      exact ⟨mid, .close hl, hl'⟩

/-- A second copy right behind the first one changes nothing. -/
theorem Queue.twice (h : Queue e [pkt] top) : Queue top [pkt] top := by
  cases h with
  | next tail =>
    cases tail
    exact .again (Nat.le_add_left 1 e) .nil
  | again pos tail =>
    cases tail
    exact .again pos .nil
  | ack missed tail =>
    cases tail
    exact .ack missed .nil
  | close tail =>
    cases tail
    exact .close .nil

theorem fresh_next (w seq : SeqNum) (payload : List UInt8) (rest : List Packet) :
    fresh e (.data w seq payload (e + 1) :: rest) = payload ++ fresh (e + 1) rest := if_pos rfl

theorem fresh_again (w seq : SeqNum) (payload : List UInt8) (rest : List Packet) :
    fresh e (.data w seq payload e :: rest) = fresh e rest := if_neg (Nat.ne_of_lt (Nat.lt_succ_self e))

theorem fresh_append (h : Queue e l mid) (l' : List Packet) : fresh e (l ++ l') = fresh e l ++ fresh mid l' := by
  induction h with
  | nil => rfl
  | next _ ih => rw [List.cons_append, fresh_next, fresh_next, ih, List.append_assoc]
  | again _ _ ih => rw [List.cons_append, fresh_again, fresh_again, ih]
  | ack _ _ ih => exact ih
  | close _ ih => exact ih

/-- A wire without a new number gives no bytes. -/
theorem Queue.fresh_nil (h : Queue e l top) (hle : top ≤ e) : fresh e l = [] := by
  induction h with
  | nil => rfl
  | next tail _ => exact absurd (tail.le.trans hle) (Nat.not_succ_le_self _)
  | again _ _ ih =>
    rw [fresh_again]
    exact ih hle
  | ack _ _ ih => exact ih hle
  | close _ ih => exact ih hle

theorem Acks.le (h : Acks size lo l hi) : lo ≤ hi := by
  induction h with
  | nil => exact Nat.le_refl _
  | ack _ _ _ le _ ih => exact le.trans ih
  | skip _ _ ih => exact ih

theorem Acks.append {mid : Nat} (h : Acks size lo l mid) (h' : Acks size mid l' hi) : Acks size lo (l ++ l') hi := by
  induction h with
  | nil => exact h'
  | ack flags seq same le _ ih => exact .ack flags seq same le (ih h')
  | skip other _ ih => exact .skip other (ih h')

theorem Acks.split (h : Acks size lo (l ++ l') hi) : ∃ mid, Acks size lo l mid ∧ Acks size mid l' hi := by
  induction l generalizing lo with
  | nil => exact ⟨lo, .nil, h⟩
  | cons pkt l ih =>
    cases h with
    | ack flags seq same le tail =>
      obtain ⟨mid, hl, hl'⟩ := ih tail
      exact ⟨mid, .ack flags seq same le hl, hl'⟩
    | skip other tail =>
      obtain ⟨mid, hl, hl'⟩ := ih tail
      exact ⟨mid, .skip other hl, hl'⟩

theorem Acks.twice (h : Acks size lo [pkt] hi) : Acks size hi [pkt] hi := by
  cases h with
  | ack flags seq same le tail =>
    cases tail
    exact .ack flags seq same (Nat.le_refl _) .nil
  | skip other tail =>
    cases tail
    exact .skip other .nil

/-- Packets that are no acks. -/
theorem Acks.of_forall (h : ∀ pkt ∈ l, ∀ ap, pkt = .ack ap → ap.flags ≠ .ack) : Acks size lo l lo := by
  induction l with
  | nil => exact .nil
  | cons pkt l ih =>
    exact .skip (h pkt List.mem_cons_self) (ih fun pkt' h' => h pkt' (List.mem_cons_of_mem _ h'))

def Packet.Quiet : Packet → Prop
  | .ack ap => ap.flags = .ack → ap.missedSeq = []
  | .close => True
  | _ => False

theorem Queue.of_quiet (h : ∀ pkt ∈ l, pkt.Quiet) : Queue e l e := by
  induction l with
  | nil => exact .nil
  | cons pkt l ih =>
    have hhead := h pkt List.mem_cons_self
    have htail := ih fun pkt' h' => h pkt' (List.mem_cons_of_mem _ h')
    cases pkt with
    | data => exact hhead.elim
    | ack ap => exact .ack hhead htail
    | nack => exact hhead.elim
    | close => exact .close htail

end

/-! ### The receiver -/

structure Gapless (c : Channel) : Prop where
  startSeq : c.rxAckPack.rxWinStart = seqOf c.rxAckPack.rxWinStartIdx
  endSeq : c.rxAckPack.rxWinEnd = seqOf c.rxAckPack.rxWinEndIdx
  flags : c.rxAckPack.flags = .ack
  missed : c.rxAckPack.missedSeq = []
  row : Row c.rxAckPack.rxWinStartIdx c.rxWin c.rxAckPack.rxWinEndIdx
  small : c.rxAckPack.rxWinSize.toNat < 2 ^ 15

section
variable {start stop : Nat} {win : List DataPacket} {d dp : DataPacket} {c : Channel}

/-- What is left of a packet keeps its place. -/
theorem Row.shorten (h : Row start (d :: win) stop) (data : List UInt8) : Row start ({ d with data := data } :: win) stop := h

/-- The next packet is placed at the end: nothing is missed, and nothing is asked for. -/
theorem storeData_next (h : Gapless c) (hidx : dp.idx = c.rxAckPack.rxWinEndIdx + 1) (hseq : dp.seq = seqOf dp.idx)
    (hroom : dp.idx ≤ c.rxAckPack.rxWinStartIdx + c.rxAckPack.rxWinSize.toNat) :
    Channel.storeData dp c =
      { ch := { c with
          rxWin := c.rxWin ++ [dp]
          rxAckPack := { c.rxAckPack with rxWinEnd := dp.seq, rxWinEndIdx := dp.idx } }
        rxWinAvail := !(c.rxWin ++ [dp]).isEmpty && dp.seq == c.rxAckPack.rxWinStart } := by
  have hnext : dp.seq = c.rxAckPack.rxWinEnd + 1 := by
    rw [hseq, hidx, h.endSeq, SeqNum.seqOf_succ]
  have hle := h.row.le
  have hsmall := h.small
  have hlimit : SeqNum.gt dp.seq (c.rxAckPack.rxWinStart + c.rxAckPack.rxWinSize) = false := by
    have hsum : c.rxAckPack.rxWinStart + c.rxAckPack.rxWinSize =
        seqOf (c.rxAckPack.rxWinStartIdx + c.rxAckPack.rxWinSize.toNat) := by
      rw [SeqNum.seqOf_add, h.startSeq, SeqNum.seqOf_toNat]
    rw [hsum, hseq, SeqNum.gt_seqOf ⟨by omega, by omega⟩]
    exact decide_eq_false (by omega)
  have hremove : c.rxAckPack.missedSeq.remove dp.seq = c.rxAckPack.missedSeq := by
    rw [h.missed]
    rfl
  rw [Channel.storeData]
  simp only [hremove, hlimit, if_pos hnext, Bool.false_eq_true, if_false]

/-- The scan of `handle_data` finds the last packet, if it is still held. -/
theorem Row.scanStop (h : Row start win stop) (hle : start ≤ stop) (hspan : stop < start + 2 ^ 15) (hidx : dp.idx = stop)
    (hseq : dp.seq = seqOf stop) : (Channel.scanStop dp win).any (fun d => d.seq == dp.seq) = true := by
  induction win generalizing start with
  | nil =>
    obtain rfl : start = stop + 1 := h
    omega
  | cons d win ih =>
    obtain ⟨hd, hdseq, hrow⟩ := h
    rw [Channel.scanStop, List.find?_cons]
    rw [hdseq, hseq, SeqNum.lt_seqOf ⟨by omega, by omega⟩]
    by_cases hlt : start < stop
    · rw [decide_eq_true hlt, Bool.not_true]
      have hrest := ih hrow (by omega) (by omega)
      rw [Channel.scanStop, hseq] at hrest
      exact hrest
    · obtain rfl : start = stop := by omega
      rw [decide_eq_false hlt, Bool.not_false]
      simp only [Option.any_some, hdseq, beq_self_eq_true]

/-- The last packet again changes nothing. -/
theorem storeData_again (h : Gapless c) (hidx : dp.idx = c.rxAckPack.rxWinEndIdx) (hseq : dp.seq = seqOf dp.idx)
    (hroom : dp.idx ≤ c.rxAckPack.rxWinStartIdx + c.rxAckPack.rxWinSize.toNat) : Channel.storeData dp c = { ch := c } := by
  have hle := h.row.le
  have hsmall := h.small
  have hend : c.rxAckPack.rxWinEnd + 1 = seqOf (dp.idx + 1) := by rw [h.endSeq, hidx, SeqNum.seqOf_succ]
  have hne : ¬ dp.seq = c.rxAckPack.rxWinEnd + 1 := by
    rw [hend, hseq, SeqNum.seqOf_inj ⟨by omega, by omega⟩]
    omega
  have hgt : SeqNum.gt dp.seq (c.rxAckPack.rxWinEnd + 1) = false := by
    rw [hend, hseq, SeqNum.gt_seqOf ⟨by omega, by omega⟩]
    exact decide_eq_false (by omega)
  have hremove : c.rxAckPack.missedSeq.remove dp.seq = c.rxAckPack.missedSeq := by
    rw [h.missed]
    rfl
  have hread : SeqNum.lt dp.seq c.rxAckPack.rxWinStart = decide (dp.idx < c.rxAckPack.rxWinStartIdx) := by
    rw [h.startSeq, hseq, SeqNum.lt_seqOf ⟨by omega, by omega⟩]
  rw [Channel.storeData]
  simp only [hremove, if_neg hne, hgt, hread, Bool.false_eq_true, if_false, decide_eq_true_eq]
  -- the packet was read, or it is the last one of the window
  split_ifs with hold hscan
  · rfl
  · rfl
  · exact absurd (h.row.scanStop (by omega) (by omega) hidx (hidx ▸ hseq)) hscan

def bytesOf (win : List DataPacket) : List UInt8 := win.flatMap fun d => d.data

/-- What `read` leaves of a window without gaps: it goes on until it has enough or the window is empty. -/
structure ReadOff (ack : AckPacket) (win : List DataPacket) (len : Nat) (r : List UInt8 × Nat × List DataPacket × AckPacket) :
    Prop where
  row : Row r.2.2.2.rxWinStartIdx r.2.2.1 ack.rxWinEndIdx
  seq : r.2.2.2.rxWinStart = seqOf r.2.2.2.rxWinStartIdx
  frame : ∃ start idx, r.2.2.2 = { ack with rxWinStart := start, rxWinStartIdx := idx }
  le : ack.rxWinStartIdx ≤ r.2.2.2.rxWinStartIdx
  bytes : bytesOf win = r.1 ++ bytesOf r.2.2.1
  length : r.1.length + r.2.1 = len
  rest : r.2.1 = 0 ∨ r.2.2.1 = []

theorem readLoop_readOff {ack : AckPacket} (len : Nat) (h : Row ack.rxWinStartIdx win ack.rxWinEndIdx)
    (hseq : ack.rxWinStart = seqOf ack.rxWinStartIdx) : ReadOff ack win len (Channel.readLoop ack win len) := by
  induction win generalizing ack len with
  | nil => exact ⟨h, hseq, ⟨_, _, rfl⟩, Nat.le_refl _, rfl, Nat.zero_add _, .inr rfl⟩
  | cons d win ih =>
    obtain ⟨hidx, hd, hrow⟩ := h
    rw [Channel.readLoop]
    by_cases hstop : len = 0
    · rw [if_pos (.inl hstop)]
      exact ⟨⟨hidx, hd, hrow⟩, hseq, ⟨_, _, rfl⟩, Nat.le_refl _, rfl, Nat.zero_add _, .inl hstop⟩
    have hgo : ¬ (len = 0 ∨ d.seq ≠ ack.rxWinStart) := by
      rw [hseq, hd]
      simp [hstop]
    rw [if_neg hgo]
    simp only
    split_ifs with hdone
    · have hall : min len d.data.length = d.data.length := by omega
      rw [hall, List.take_length]
      have hnext : ack.rxWinStart + 1 = seqOf (ack.rxWinStartIdx + 1) := by rw [hseq, SeqNum.seqOf_succ]
      have hrest := @ih { ack with rxWinStart := ack.rxWinStart + 1, rxWinStartIdx := ack.rxWinStartIdx + 1 }
        (len - d.data.length) hrow hnext
      obtain ⟨start, idx, hframe⟩ := hrest.frame
      refine ⟨hrest.row, hrest.seq, ⟨start, idx, hframe⟩, (Nat.le_succ _).trans hrest.le, ?_, ?_, hrest.rest⟩
      · have hbytes := hrest.bytes
        rw [bytesOf, List.flatMap_cons, List.append_assoc]
        exact congrArg (d.data ++ ·) hbytes
      · have hlength := hrest.length
        simp only [List.length_append]
        omega
    · have hpart : min len d.data.length = len := by omega
      rw [hpart]
      refine ⟨⟨hidx, hd, hrow⟩, hseq, ⟨_, _, rfl⟩, Nat.le_refl _, ?_, ?_, .inl (Nat.sub_self len)⟩
      · simp only [bytesOf, List.flatMap_cons]
        rw [← List.append_assoc, List.take_append_drop]
      · rw [List.length_take, Nat.sub_self]
        omega

end
/-! ### One direction -/

/-- The number last sent: the one that a writer waits with is not. -/
def Side.sentIdx (s : Side) : Nat := if s.writer.waiting then s.ch.nextTxIdx - 1 else s.ch.nextTxIdx

/-- An open receiver `u`, the sender `s`, and the wire from the one to the other. -/
structure Conveys (s u : Side) (wire : List Packet) : Prop where
  gapless : Gapless u.ch
  calm : u.ch.txMissList = [] ∧ u.ch.retranTask = false ∧ u.ch.exited = false
  asleep : ∀ len got, u.reader = .blocked len got false → u.ch.rxWin = []
  queue : ∃ top, Queue u.ch.rxAckPack.rxWinEndIdx wire top ∧
    top ≤ u.ch.rxAckPack.rxWinStartIdx + u.ch.rxAckPack.rxWinSize.toNat ∧ (s.ch.chan = true → top = s.sentIdx)

/-- An open sender `s` that faces an open receiver `u`, and the wire back to it. -/
structure Paced (s u : Side) (back : List Packet) : Prop where
  nextSeq : s.ch.nextTxSeq = seqOf s.ch.nextTxIdx
  lastSeq : s.ch.lastRxAck.rxWinStart = seqOf s.ch.lastRxAck.rxWinStartIdx
  startUp : s.ch.startUp = true
  win : s.ch.txWinSize.toNat ≤ max 1 u.ch.rxAckPack.rxWinSize.toNat
  zero : u.ch.rxAckPack.rxWinSize.toNat = 0 → s.sentIdx ≤ 1 ∧
    (s.ch.lastRxAck.rxWinStartIdx = 1 ∧ s.ch.txWinSize.toNat = 1 ∨ s.ch.txWinSize.toNat = 0)
  ahead : s.sentIdx ≤ s.ch.lastRxAck.rxWinStartIdx + s.ch.txWinSize.toNat
  acks : ∃ hi, Acks u.ch.rxAckPack.rxWinSize s.ch.lastRxAck.rxWinStartIdx back hi ∧ hi ≤ u.ch.rxAckPack.rxWinStartIdx
  waits : ∀ dp rest woken, s.writer = .blocked dp rest woken →
    dp.idx = s.ch.nextTxIdx ∧ dp.seq = s.ch.nextTxSeq ∧ 1 ≤ dp.idx

/-- The direction from `s` to `u`, as long as the receiver is open. -/
def Directed (s u : Side) (wire back : List Packet) : Prop :=
  u.ch.chan = true → Conveys s u wire ∧ (s.ch.chan = true → Paced s u back)

/-- The sending half of an open endpoint is left alone. -/
structure SameSending (s s' : Side) : Prop where
  chan : s.ch.chan = true
  nextSeq : s'.ch.nextTxSeq = s.ch.nextTxSeq
  nextIdx : s'.ch.nextTxIdx = s.ch.nextTxIdx
  flow : Channel.SameFlow s.ch s'.ch
  waiting : s'.writer.waiting = s.writer.waiting
  follows : s.writer.Follows s'.writer

/-- The receiving half of an open endpoint is left alone, and no packet is asked for. -/
structure SameReceiving (u u' : Side) : Prop where
  chan : u.ch.chan = true
  rx : Channel.SameRx u.ch u'.ch
  calm : u'.ch.txMissList = u.ch.txMissList ∧ u'.ch.retranTask = u.ch.retranTask ∧ u'.ch.exited = u.ch.exited
  asleep : ∀ len got, u'.reader = .blocked len got false → u.reader = .blocked len got false

section
variable {s s' u u' : Side} {wire back sent : List Packet} {pkt : Packet}

theorem SameSending.sentIdx (h : SameSending s s') : s'.sentIdx = s.sentIdx := by
  rw [Side.sentIdx, Side.sentIdx, h.waiting, h.nextIdx]

/-- A step of the sender that sends no data. -/
theorem Directed.sender (h : Directed s u wire back) (hs : s'.ch.chan = true → SameSending s s')
    (hquiet : ∀ pkt ∈ sent, pkt.Quiet) : Directed s' u (wire ++ sent) back := by
  intro hopen
  obtain ⟨hconveys, hpaced⟩ := h hopen
  refine ⟨{ hconveys with queue := ?_ }, fun hchan => ?_⟩
  · obtain ⟨top, hqueue, hroom, hsent⟩ := hconveys.queue
    refine ⟨top, hqueue.append (.of_quiet hquiet), hroom, fun hchan => ?_⟩
    rw [(hs hchan).sentIdx]
    exact hsent (hs hchan).chan
  · have hsame := hs hchan
    have h := hpaced hsame.chan
    obtain ⟨hlast, hwin, hstart⟩ := hsame.flow
    constructor
    · rw [hsame.nextSeq, hsame.nextIdx]
      exact h.nextSeq
    · rw [hlast]
      exact h.lastSeq
    · rw [hstart]
      exact h.startUp
    · rw [hwin]
      exact h.win
    · rw [hsame.sentIdx, hlast, hwin]
      exact h.zero
    · rw [hsame.sentIdx, hlast, hwin]
      exact h.ahead
    · rw [hlast]
      exact h.acks
    · intro dp rest woken hb
      obtain ⟨woken', hb'⟩ := hsame.follows dp rest woken hb
      rw [hsame.nextIdx, hsame.nextSeq]
      exact h.waits dp rest woken' hb'

/-- A packet that is no ack leaves the wire back to the sender. -/
theorem Directed.skipBack (h : Directed s u wire (pkt :: back)) (hno : ∀ ap, pkt = .ack ap → ap.flags ≠ .ack) :
    Directed s u wire back := by
  intro hopen
  obtain ⟨hconveys, hpaced⟩ := h hopen
  refine ⟨hconveys, fun hchan => { hpaced hchan with acks := ?_ }⟩
  obtain ⟨hi, hacks, hle⟩ := (hpaced hchan).acks
  cases hacks with
  | ack flags => exact absurd flags (hno _ rfl)
  | skip other tail => exact ⟨hi, tail, hle⟩

/-- The sender knows of the receiver what it advertises. -/
theorem Paced.receiver (h : Paced s u back) (hsize : u'.ch.rxAckPack.rxWinSize = u.ch.rxAckPack.rxWinSize)
    (hstart : u.ch.rxAckPack.rxWinStartIdx ≤ u'.ch.rxAckPack.rxWinStartIdx) : Paced s u' back := by
  refine { h with win := ?_, zero := ?_, acks := ?_ }
  · rw [hsize]
    exact h.win
  · rw [hsize]
    exact h.zero
  · obtain ⟨hi, hacks, hle⟩ := h.acks
    rw [hsize]
    exact ⟨hi, hacks, hle.trans hstart⟩

/-- A step of the receiver that takes nothing off the wire; what it sends reports window starts up to its own. -/
theorem Directed.receiver (h : Directed s u wire back) (hu : u'.ch.chan = true → SameReceiving u u')
    (hacks : u'.ch.chan = true → ∀ lo, lo ≤ u.ch.rxAckPack.rxWinStartIdx →
      ∃ hi, Acks u.ch.rxAckPack.rxWinSize lo sent hi ∧ hi ≤ u.ch.rxAckPack.rxWinStartIdx) :
    Directed s u' wire (back ++ sent) := by
  intro hopen
  have hsame := hu hopen
  obtain ⟨hconveys, hpaced⟩ := h hsame.chan
  obtain ⟨⟨seq, now, hack⟩, hwin, -⟩ := hsame.rx
  obtain ⟨hmiss, htask, hexit⟩ := hsame.calm
  refine ⟨⟨?_, ?_, ?_, ?_⟩, fun hchan => ?_⟩
  · obtain ⟨h1, h2, h3, h4, h5, h6⟩ := hconveys.gapless
    constructor
    all_goals rw [hack]
    · exact h1
    · exact h2
    · exact h3
    · exact h4
    · rw [hwin]
      exact h5
    · exact h6
  · rw [hmiss, htask, hexit]
    exact hconveys.calm
  · intro len got hb
    rw [hwin]
    exact hconveys.asleep len got (hsame.asleep len got hb)
  · rw [hack]
    exact hconveys.queue
  · obtain ⟨hi, hback, hle⟩ := (hpaced hchan).acks
    obtain ⟨hi', hsent, hle'⟩ := hacks hopen hi hle
    apply Paced.receiver (u := u)
    · exact { hpaced hchan with acks := ⟨hi', hback.append hsent, hle'⟩ }
    · rw [hack]
    · rw [hack]

/-- A packet without data leaves the wire to the receiver. -/
theorem Directed.skipWire (h : Directed s u (pkt :: wire) back) (hno : ∀ w seq payload idx, pkt ≠ .data w seq payload idx) :
    Directed s u wire back := by
  intro hopen
  obtain ⟨hconveys, hpaced⟩ := h hopen
  refine ⟨{ hconveys with queue := ?_ }, hpaced⟩
  obtain ⟨top, hqueue, hrest⟩ := hconveys.queue
  cases hqueue with
  | next => exact absurd rfl (hno _ _ _ _)
  | again => exact absurd rfl (hno _ _ _ _)
  | ack missed tail => exact ⟨top, tail, hrest⟩
  | close tail => exact ⟨top, tail, hrest⟩

/-- `can_send` compares the counts. -/
theorem Paced.lt_of_canSend {c : Channel} (hnext : c.nextTxSeq = seqOf c.nextTxIdx)
    (hlast : c.lastRxAck.rxWinStart = seqOf c.lastRxAck.rxWinStartIdx) (hwin : c.txWinSize.toNat < 2 ^ 15)
    (hge : c.lastRxAck.rxWinStartIdx ≤ c.nextTxIdx)
    (hle : c.nextTxIdx ≤ c.lastRxAck.rxWinStartIdx + c.txWinSize.toNat + 1) (hcan : c.canSend = true) :
    c.nextTxIdx < c.lastRxAck.rxWinStartIdx + c.txWinSize.toNat := by
  have hsum : c.lastRxAck.rxWinStart + c.txWinSize = seqOf (c.lastRxAck.rxWinStartIdx + c.txWinSize.toNat) := by
    rw [SeqNum.seqOf_add, hlast, SeqNum.seqOf_toNat]
  rw [Channel.canSend, hsum, hnext, SeqNum.lt_seqOf ⟨by omega, by omega⟩, decide_eq_true_eq] at hcan
  exact hcan

/-- The head of the loop of `write` takes a number, and has not sent it yet. -/
theorem Directed.take (h : Directed s u wire back) (hno : s.writer.waiting = false) (payload rest : List UInt8)
    (chunks : List (List UInt8)) :
    Directed { s with
      ch := (s.ch.takePacket payload).1
      chunks := chunks
      writer := .blocked (s.ch.takePacket payload).2 rest false } u wire back := by
  intro hopen
  obtain ⟨hconveys, hpaced⟩ := h hopen
  have hsent : s.sentIdx = s.ch.nextTxIdx := by rw [Side.sentIdx, hno, if_neg Bool.false_ne_true]
  refine ⟨{ hconveys with queue := ?_ }, fun hchan => ?_⟩
  · obtain ⟨top, hqueue, hroom, htop⟩ := hconveys.queue
    exact ⟨top, hqueue, hroom, fun hchan => (htop hchan).trans hsent⟩
  · have h := hpaced hchan
    refine ⟨?_, h.lastSeq, h.startUp, h.win, fun hzero => ?_, ?_, h.acks, fun dp rest' woken hb => ?_⟩
    · show s.ch.nextTxSeq + 1 = seqOf (s.ch.nextTxIdx + 1)
      rw [h.nextSeq, SeqNum.seqOf_succ]
    · exact ⟨hsent.symm.trans_le (h.zero hzero).1, (h.zero hzero).2⟩
    · exact hsent.symm.trans_le h.ahead
    · cases hb
      exact ⟨rfl, rfl, Nat.le_add_left 1 _⟩

/-- The window of the receiver has room for what `can_send` lets go. -/
theorem Directed.room (h : Directed s u wire back) (hopen : u.ch.chan = true) (hchan : s.ch.chan = true)
    (hwaiting : s.writer.waiting = true) (hpos : 1 ≤ s.ch.nextTxIdx) (hcan : s.ch.canSend = true) :
    s.ch.nextTxIdx < s.ch.lastRxAck.rxWinStartIdx + s.ch.txWinSize.toNat ∧
    s.ch.nextTxIdx ≤ u.ch.rxAckPack.rxWinStartIdx + u.ch.rxAckPack.rxWinSize.toNat ∧
    (u.ch.rxAckPack.rxWinSize.toNat = 0 → s.ch.nextTxIdx ≤ 1) := by
  obtain ⟨hconveys, hpaced⟩ := h hopen
  have h := hpaced hchan
  obtain ⟨top, hqueue, hroom, htop⟩ := hconveys.queue
  obtain ⟨hi, hacks, hle⟩ := h.acks
  have hsent : s.sentIdx = s.ch.nextTxIdx - 1 := by rw [Side.sentIdx, hwaiting, if_pos rfl]
  have htop' := (htop hchan).trans hsent
  have hstart := hconveys.gapless.row.le
  have hsmall := hconveys.gapless.small
  have hend := hqueue.le
  have hlo := hacks.le
  have hahead := h.ahead
  have hwin := h.win
  have hlt := Paced.lt_of_canSend h.nextSeq h.lastSeq (by omega) (by omega) (by omega) hcan
  by_cases hsize : u.ch.rxAckPack.rxWinSize.toNat = 0
  · have hzero := (h.zero hsize).2
    exact ⟨hlt, by omega, by omega⟩
  · exact ⟨hlt, by omega, fun h0 => absurd h0 hsize⟩

/-- The packet that waits comes behind all that is on the wire. -/
theorem Directed.pending {dp : DataPacket} {rest : List UInt8} {woken : Bool} (h : Directed s u wire back)
    (hopen : u.ch.chan = true) (hchan : s.ch.chan = true) (hblocked : s.writer = .blocked dp rest woken) :
    ∃ top, Queue u.ch.rxAckPack.rxWinEndIdx wire top ∧ dp.idx = top + 1 := by
  obtain ⟨hconveys, hpaced⟩ := h hopen
  obtain ⟨hidx, -, hpos⟩ := (hpaced hchan).waits dp rest woken hblocked
  obtain ⟨top, hqueue, -, htop⟩ := hconveys.queue
  refine ⟨top, hqueue, ?_⟩
  have hsent : s.sentIdx = s.ch.nextTxIdx - 1 := by
    rw [Side.sentIdx, hblocked]
    rfl
  have htop := htop hchan
  omega

/-- A packet whose number is taken is sent, where `can_send` allows it. -/
theorem Directed.trySend {dp : DataPacket} {rest : List UInt8} {woken : Bool} (h : Directed s u wire back)
    (hblocked : s.writer = .blocked dp rest woken) :
    Directed (s.trySend dp rest).1 u (wire ++ (s.trySend dp rest).2) back := by
  have hwaiting : s.writer.waiting = true := by
    rw [hblocked]
    rfl
  rw [Side.trySend]
  by_cases hcan : s.ch.canSend = true
  · rw [if_pos hcan]
    by_cases hchan : s.ch.chan = true
    · intro hopen
      obtain ⟨hconveys, hpaced⟩ := h hopen
      have hp := hpaced hchan
      obtain ⟨hidx, hseq, hpos⟩ := hp.waits dp rest woken hblocked
      obtain ⟨hlt, hroom, hone⟩ := h.room hopen hchan hwaiting (hidx ▸ hpos) hcan
      have hnow : Side.sentIdx { s with ch := (s.ch.sendPacket dp).1, writer := Writer.next rest } = s.ch.nextTxIdx := by
        rw [Side.sentIdx, Writer.waiting_next, if_neg Bool.false_ne_true]
        rfl
      rw [if_pos hchan]
      refine ⟨{ hconveys with queue := ?_ }, fun _ => ?_⟩
      · obtain ⟨top, hqueue, hnext⟩ := h.pending hopen hchan hblocked
        refine ⟨top + 1, hqueue.append ?_, ?_, fun _ => ?_⟩
        · rw [Channel.sendPacket, hchan, if_pos rfl, Channel.dataPacket, hseq, hp.nextSeq, ← hidx, hnext]
          exact .next .nil
        · rw [← hnext, hidx]
          exact hroom
        · rw [← hnext, hidx]
          exact hnow.symm
      · refine ⟨hp.nextSeq, hp.lastSeq, hp.startUp, hp.win, fun hzero => ⟨hnow.trans_le (hone hzero), (hp.zero hzero).2⟩,
          hnow.trans_le hlt.le, hp.acks, fun dp' rest' w hb => ?_⟩
        obtain ⟨w', hb'⟩ := Writer.follows_next .idle rest dp' rest' w hb
        cases hb'
    · -- the send throws
      rw [Channel.sendPacket, if_neg hchan]
      exact h.sender (fun hopen => absurd hopen hchan) fun pkt hpkt => absurd hpkt List.not_mem_nil
  · rw [if_neg hcan]
    refine h.sender (fun hchan => ⟨hchan, rfl, rfl, .refl _, ?_, ?_⟩) fun pkt hpkt => absurd hpkt List.not_mem_nil
    · exact hwaiting.symm
    · intro dp' rest' w hb
      cases hb
      exact ⟨woken, hblocked⟩

theorem Directed.writeNext (h : Directed s u wire back) (hno : s.writer.waiting = false) (rest : List UInt8) :
    Directed (s.writeNext rest).1 u (wire ++ (s.writeNext rest).2) back := by
  have htaken := h.take hno (rest.take maxPayload) (rest.drop maxPayload) (s.chunks ++ [rest.take maxPayload])
  have hsent := htaken.trySend rfl
  rw [Side.trySend] at hsent
  rw [Side.writeNext, Side.trySend]
  exact hsent

theorem Acks.lower {size : BitVec 16} {lo lo' hi : Nat} {l : List Packet} (h : Acks size lo l hi) (hlo : lo' ≤ lo) :
    ∃ hi', Acks size lo' l hi' ∧ hi' ≤ hi := by
  induction h with
  | nil => exact ⟨lo', .nil, hlo⟩
  | ack flags seq same le tail _ => exact ⟨_, .ack flags seq same (hlo.trans le) tail, Nat.le_refl _⟩
  | skip other _ ih =>
    obtain ⟨hi', htail, hle⟩ := ih hlo
    exact ⟨hi', .skip other htail, hle⟩

/-- During start-up the window grows up to the advertised one. -/
theorem grownWindow_ge {w remote : BitVec 16} (hw : w.toNat < 2 ^ 15) (hr : w.toNat ≤ remote.toNat) :
    w.toNat ≤ (Channel.grownWindow true w remote).toNat := by
  rw [Channel.grownWindow, if_pos rfl]
  simp only
  split_ifs
  · exact hr
  · rw [BitVec.toNat_ofNat, Nat.mod_eq_of_lt (by omega)]
    omega

private theorem grownWindow_of_zero {w remote : BitVec 16} (hw : w.toNat ≤ 1) (hr : remote.toNat = 0) :
    (Channel.grownWindow true w remote).toNat = 0 := by
  rw [Channel.grownWindow, if_pos rfl]
  simp only
  rw [if_pos, hr]
  rw [BitVec.lt_def, hr, BitVec.toNat_ofNat, Nat.mod_eq_of_lt (by omega)]
  omega

/-- An ack is answered by an ack2, which asks for nothing. -/
theorem handleAck_quiet (ap : AckPacket) (c : Channel) : ∀ pkt ∈ (c.handleAck ap).sent, pkt.Quiet := by
  intro pkt hpkt
  obtain ⟨ap2, rfl, hap2⟩ := Channel.handleAck_sent ap c pkt hpkt
  intro hack
  rw [hap2] at hack
  cases hack

/-- An ack reaches its sender. -/
theorem Directed.handleAck {ap : AckPacket} (h : Directed s u wire (.ack ap :: back)) (hchan : s.ch.chan = true)
    (hflags : ap.flags = .ack) : Directed (s.after (s.ch.handleAck ap)) u (wire ++ (s.ch.handleAck ap).sent) back := by
  intro hopen
  obtain ⟨hconveys, hpaced⟩ := h hopen
  have hp := hpaced hchan
  obtain ⟨hkeeps, -, hlast, hgrown, hstart⟩ := Channel.handleAck_frame ap s.ch
  have hsent : (s.after (s.ch.handleAck ap)).sentIdx = s.sentIdx := by
    rw [Side.sentIdx, Side.sentIdx, Side.after, Writer.waiting_wake, hkeeps.nextTxIdx]
  refine ⟨{ hconveys with queue := ?_ }, fun _ => ?_⟩
  · obtain ⟨top, hqueue, hroom, htop⟩ := hconveys.queue
    refine ⟨top, hqueue.append (.of_quiet (handleAck_quiet ap _)), hroom, fun _ => ?_⟩
    rw [hsent]
    exact htop hchan
  obtain ⟨hi, hacks, hle⟩ := hp.acks
  cases hacks with
  | skip other => exact absurd hflags (other ap rfl)
  | ack _ hseq hsame hge htail =>
    have hsmall := hconveys.gapless.small
    have hwin := hp.win
    -- the start that is known afterwards, and what is behind it on the wire
    have hknown : (s.ch.handleAck ap).ch.lastRxAck.rxWinStart = seqOf (s.ch.handleAck ap).ch.lastRxAck.rxWinStartIdx ∧
        s.ch.lastRxAck.rxWinStartIdx ≤ (s.ch.handleAck ap).ch.lastRxAck.rxWinStartIdx ∧
        (s.ch.handleAck ap).ch.lastRxAck.rxWinStartIdx ≤ ap.rxWinStartIdx := by
      rcases hlast with hlast | hlast
      · rw [hlast]
        exact ⟨hseq, hge, Nat.le_refl _⟩
      · rw [hlast]
        exact ⟨hp.lastSeq, Nat.le_refl _, hge⟩
    obtain ⟨hknownSeq, hmore, hless⟩ := hknown
    obtain ⟨hi', htail', hle'⟩ := htail.lower hless
    rw [hp.startUp, hsame] at hgrown
    have hw' : (s.ch.handleAck ap).ch.txWinSize.toNat ≤ max 1 u.ch.rxAckPack.rxWinSize.toNat := by
      rw [hgrown]
      exact Channel.grownWindow_le hwin (Nat.le_max_right _ _) true
    refine ⟨?_, hknownSeq, hstart.trans hp.startUp, hw', fun hzero => ?_, ?_, ⟨hi', htail', hle'.trans hle⟩, ?_⟩
    · show (s.ch.handleAck ap).ch.nextTxSeq = seqOf (s.ch.handleAck ap).ch.nextTxIdx
      rw [hkeeps.nextTxSeq, hkeeps.nextTxIdx]
      exact hp.nextSeq
    · rw [hsent]
      refine ⟨(hp.zero hzero).1, .inr ?_⟩
      show (s.ch.handleAck ap).ch.txWinSize.toNat = 0
      rw [hgrown]
      exact grownWindow_of_zero (by omega) hzero
    · rw [hsent]
      show s.sentIdx ≤ (s.ch.handleAck ap).ch.lastRxAck.rxWinStartIdx + (s.ch.handleAck ap).ch.txWinSize.toNat
      have hahead := hp.ahead
      by_cases hzero : u.ch.rxAckPack.rxWinSize.toNat = 0
      · have hz := hp.zero hzero
        omega
      · have hgrows : s.ch.txWinSize.toNat ≤ (s.ch.handleAck ap).ch.txWinSize.toNat := by
          rw [hgrown]
          exact grownWindow_ge (by omega) (by omega)
        omega
    · intro dp rest woken hb
      rw [Side.after_writer] at hb
      obtain ⟨woken', hb'⟩ := Writer.follows_wake _ _ dp rest woken hb
      show dp.idx = (s.ch.handleAck ap).ch.nextTxIdx ∧ dp.seq = (s.ch.handleAck ap).ch.nextTxSeq ∧ 1 ≤ dp.idx
      rw [hkeeps.nextTxIdx, hkeeps.nextTxSeq]
      exact hp.waits dp rest woken' hb'

/-- `read` moves the start of the window. -/
theorem Directed.readMore (h : Directed s u wire back) (len : Nat) (got : List UInt8) :
    Directed s (u.readMore len got) wire back := by
  intro hopen
  have hchan : u.ch.chan = true := by
    rw [Side.readMore] at hopen
    simp only at hopen
    split_ifs at hopen <;> exact hopen
  obtain ⟨hconveys, hpaced⟩ := h hchan
  have hoff := readLoop_readOff len hconveys.gapless.row hconveys.gapless.startSeq
  obtain ⟨start, idx, hframe⟩ := hoff.frame
  have hch : (u.readMore len got).ch = { u.ch with
      rxWin := (Channel.readLoop u.ch.rxAckPack u.ch.rxWin len).2.2.1
      rxAckPack := (Channel.readLoop u.ch.rxAckPack u.ch.rxWin len).2.2.2 } := by
    rw [Side.readMore]
    simp only
    split_ifs <;> rfl
  have hrow := hoff.row
  have hseq := hoff.seq
  have hle := hoff.le
  rw [hframe] at hch hrow hseq hle
  simp only at hrow hseq hle
  refine ⟨⟨?_, ?_, ?_, ?_⟩, fun hs => ?_⟩
  · rw [hch]
    exact { hconveys.gapless with startSeq := hseq, row := hrow }
  · rw [hch]
    exact hconveys.calm
  · intro len' got' hb
    have hmore : (Channel.readLoop u.ch.rxAckPack u.ch.rxWin len).2.1 ≠ 0 := by
      intro hnone
      rw [Side.readMore] at hb
      simp only [hnone, if_true] at hb
      cases hb
    rw [hch]
    exact hoff.rest.resolve_left hmore
  · obtain ⟨top, hqueue, hroom, htop⟩ := hconveys.queue
    rw [hch]
    exact ⟨top, hqueue, hroom.trans (Nat.add_le_add_right hle _), htop⟩
  · apply (hpaced hs).receiver
    · rw [hch]
    · rw [hch]
      exact hle

/-- The next packet, or the last one again, reaches the receiver. -/
theorem Conveys.storeData {dp : DataPacket} {c : Channel} (h : Conveys s u (Channel.dataPacket dp :: wire))
    (hack : c.rxAckPack = u.ch.rxAckPack) (hwin : c.rxWin = u.ch.rxWin) : Gapless (Channel.storeData dp c).ch ∧
    (Channel.storeData dp c).sent = [] ∧
    (Channel.storeData dp c).ch.rxAckPack.rxWinSize = u.ch.rxAckPack.rxWinSize ∧
    (Channel.storeData dp c).ch.rxAckPack.rxWinStartIdx = u.ch.rxAckPack.rxWinStartIdx ∧
    ((Channel.storeData dp c).ch.rxWin ≠ [] → u.ch.rxWin = [] → (Channel.storeData dp c).rxWinAvail = true) ∧
    bytesOf (Channel.storeData dp c).ch.rxWin ++ fresh (Channel.storeData dp c).ch.rxAckPack.rxWinEndIdx wire =
      bytesOf u.ch.rxWin ++ fresh u.ch.rxAckPack.rxWinEndIdx (Channel.dataPacket dp :: wire) ∧
    ∃ top, Queue (Channel.storeData dp c).ch.rxAckPack.rxWinEndIdx wire top ∧
      top ≤ u.ch.rxAckPack.rxWinStartIdx + u.ch.rxAckPack.rxWinSize.toNat ∧ (s.ch.chan = true → top = s.sentIdx) := by
  obtain ⟨top, hqueue, hroom, htop⟩ := h.queue
  have hgap : Gapless c := by
    obtain ⟨h1, h2, h3, h4, h5, h6⟩ := h.gapless
    rw [← hack] at h1 h2 h3 h4 h5 h6
    rw [← hwin] at h5
    exact ⟨h1, h2, h3, h4, h5, h6⟩
  rw [← hack] at hqueue hroom ⊢
  rw [← hwin]
  rw [Channel.dataPacket] at hqueue ⊢
  generalize hseq : dp.seq = seq at hqueue
  generalize hidx : dp.idx = idx at hqueue
  cases hqueue with
  | next tail =>
    have hle := tail.le
    have hstore := @storeData_next dp c hgap hidx (hseq.trans (by rw [hidx])) (by omega)
    rw [hstore]
    refine ⟨?_, rfl, rfl, rfl, fun _ hnil => ?_, ?_, top, ?_, hroom, htop⟩
    · refine { hgap with endSeq := hseq.trans (by rw [hidx]), row := ?_ }
      show Row _ _ dp.idx
      rw [hidx]
      exact hgap.row.append hidx hseq
    · have hrow := hgap.row
      rw [hnil] at hrow
      obtain hrow : c.rxAckPack.rxWinStartIdx = c.rxAckPack.rxWinEndIdx + 1 := hrow
      simp only [hnil, List.nil_append, List.isEmpty_cons, Bool.not_false, Bool.true_and, hseq, hgap.startSeq, hrow,
        beq_self_eq_true]
    · rw [fresh_next]
      show bytesOf (c.rxWin ++ [dp]) ++ fresh dp.idx wire = _
      rw [hidx, bytesOf, bytesOf, List.flatMap_append, List.flatMap_singleton, List.append_assoc]
    · show Queue dp.idx wire top
      rw [hidx]
      exact tail
  | again pos tail =>
    have hle := tail.le
    have hstore := @storeData_again dp c hgap hidx (hseq.trans (by rw [hidx])) (by omega)
    rw [hstore]
    refine ⟨hgap, rfl, rfl, rfl, fun hne hnil => absurd hnil hne, ?_, top, tail, hroom, htop⟩
    rw [fresh_again]

/-- A reader that is still asleep was not woken. -/
theorem Reader.asleep_of_wake {b : Bool} {r : Reader} {len : Nat} {got : List UInt8} (h : r.wake b = .blocked len got false) :
    r = .blocked len got false ∧ b = false := by
  cases b with
  | false =>
    cases r with
    | idle => cases h
    | blocked => exact ⟨h, rfl⟩
  | true =>
    cases r with
    | idle => cases h
    | blocked => cases h

/-- Whether the endpoint has been asked for packets, or has ended its process. -/
def Channel.alarm (c : Channel) : MissList × Bool × Bool := (c.txMissList, c.retranTask, c.exited)

theorem Channel.handleData_alarm (dp : DataPacket) (c : Channel) : (handleData dp c).ch.alarm = c.alarm := by
  have hstore (c : Channel) : (storeData dp c).ch.alarm = c.alarm := by
    rw [storeData]
    simp only
    split_ifs <;> rfl
  have hstart : (startSynTimer c).alarm = c.alarm := by
    rw [startSynTimer]
    split_ifs <;> rfl
  exact (hstore _).trans hstart

theorem Channel.handleAck_alarm {ap : AckPacket} (hnone : ap.missedSeq = []) (c : Channel) (hmiss : c.txMissList = []) :
    (handleAck ap c).ch.alarm = c.alarm := by
  have hsize : ¬ MissList.size [] ≠ 0 := by decide
  rw [handleAck, hnone]
  simp only [if_neg hsize]
  split_ifs <;> rw [alarm, alarm, hmiss] <;> rfl

/-- An ack2, or an ack packet with a type that no endpoint sends. -/
theorem Channel.onRecv_other {ap : AckPacket} (h : ap.flags ≠ .ack) (c : Channel) :
    (onRecv (.ack ap) c).sent = [] ∧ KeepsTx c (onRecv (.ack ap) c).ch ∧ SameFlow c (onRecv (.ack ap) c).ch ∧
    SameRx c (onRecv (.ack ap) c).ch ∧ (onRecv (.ack ap) c).ch.alarm = c.alarm := by
  rw [onRecv]
  split
  · rename_i hack
    exact absurd hack h
  · exact ⟨rfl, .of_eq rfl rfl rfl rfl, ⟨rfl, rfl, rfl⟩, .of_eq rfl rfl rfl, rfl⟩
  · exact ⟨rfl, .refl c, .refl c, .of_eq rfl rfl rfl, rfl⟩

theorem Channel.onSyn_alarm (now : UInt64) (c : Channel) : (onSyn now false c).ch.alarm = c.alarm := by
  rw [onSyn]
  simp only [Bool.false_eq_true, if_false]
  split_ifs <;> rfl

/-- Data in order is not answered. -/
theorem Conveys.handleData_sent {dp : DataPacket} (h : Conveys s u (Channel.dataPacket dp :: wire)) :
    (u.ch.handleData dp).sent = [] :=
  (h.storeData (by simp) (by simp)).2.1

theorem Directed.handleData {dp : DataPacket} (h : Directed s u (Channel.dataPacket dp :: wire) back)
    (hopen : u.ch.chan = true) :
    Directed s (u.after (u.ch.handleData dp)) wire (back ++ (u.ch.handleData dp).sent) := by
  obtain ⟨hconveys, hpaced⟩ := h hopen
  have hack : (Channel.advanceTx dp.rxWinStart (Channel.startSynTimer u.ch)).rxAckPack = u.ch.rxAckPack := by simp
  have hwin : (Channel.advanceTx dp.rxWinStart (Channel.startSynTimer u.ch)).rxWin = u.ch.rxWin := by simp
  obtain ⟨hgap, -, hsize, hstart, havail, -, hqueue⟩ := hconveys.storeData hack hwin
  have halarm := Channel.handleData_alarm dp u.ch
  rw [hconveys.handleData_sent, List.append_nil]
  intro _
  refine ⟨⟨hgap, ?_, fun len got hb => ?_, ?_⟩, fun hchan => (hpaced hchan).receiver hsize hstart.ge⟩
  · obtain ⟨hmiss, hrest⟩ := Prod.mk.inj halarm
    obtain ⟨htask, hexit⟩ := Prod.mk.inj hrest
    obtain ⟨h1, h2, h3⟩ := hconveys.calm
    exact ⟨hmiss.trans h1, htask.trans h2, hexit.trans h3⟩
  · obtain ⟨hb', hno⟩ := Reader.asleep_of_wake hb
    by_contra hne
    have hyes := havail hne (hconveys.asleep len got hb')
    exact absurd (hno.symm.trans hyes) Bool.false_ne_true
  · obtain ⟨top, htail, hroom, htop⟩ := hqueue
    refine ⟨top, htail, ?_, htop⟩
    show top ≤ (Channel.storeData dp _).ch.rxAckPack.rxWinStartIdx + (Channel.storeData dp _).ch.rxAckPack.rxWinSize.toNat
    rw [hstart, hsize]
    exact hroom

theorem SameReceiving.of_alarm (hopen : u.ch.chan = true) (hrx : Channel.SameRx u.ch u'.ch) (halarm : u'.ch.alarm = u.ch.alarm)
    (hasleep : ∀ len got, u'.reader = .blocked len got false → u.reader = .blocked len got false) : SameReceiving u u' := by
  obtain ⟨hmiss, hrest⟩ := Prod.mk.inj halarm
  exact ⟨hopen, hrx, ⟨hmiss, Prod.mk.inj hrest⟩, hasleep⟩

/-- Nothing that is no ack reports a window start. -/
theorem Directed.receiver_silent (h : Directed s u wire back) (hu : u'.ch.chan = true → SameReceiving u u')
    (hno : ∀ pkt ∈ sent, ∀ ap, pkt = .ack ap → ap.flags ≠ .ack) : Directed s u' wire (back ++ sent) :=
  h.receiver hu fun _ lo hlo => ⟨lo, .of_forall hno, hlo⟩

/-- A sender that is closed does not look at the wire back to it. -/
theorem Directed.sender_closed (h : Directed s u wire back) (hchan : s.ch.chan = false) (back' : List Packet) :
    Directed s u wire back' := by
  intro hopen
  refine ⟨(h hopen).1, fun hs => ?_⟩
  rw [hchan] at hs
  cases hs

/-- A second copy of the last packet, on the one wire or the other. -/
theorem Directed.twiceBack (h : Directed s u wire (back ++ [pkt])) : Directed s u wire (back ++ [pkt] ++ [pkt]) := by
  intro hopen
  obtain ⟨hconveys, hpaced⟩ := h hopen
  refine ⟨hconveys, fun hchan => { hpaced hchan with acks := ?_ }⟩
  obtain ⟨hi, hacks, hle⟩ := (hpaced hchan).acks
  obtain ⟨mid, -, hlast⟩ := hacks.split
  exact ⟨hi, hacks.append hlast.twice, hle⟩

theorem Directed.twiceWire (h : Directed s u (wire ++ [pkt]) back) : Directed s u (wire ++ [pkt] ++ [pkt]) back := by
  intro hopen
  obtain ⟨hconveys, hpaced⟩ := h hopen
  refine ⟨{ hconveys with queue := ?_ }, hpaced⟩
  obtain ⟨top, hqueue, hrest⟩ := hconveys.queue
  obtain ⟨mid, -, hlast⟩ := hqueue.split
  exact ⟨top, hqueue.append hlast.twice, hrest⟩

/-- A receiver that is closed. -/
theorem Directed.closed (hchan : u.ch.chan = false) : Directed s u wire back := by
  intro hopen
  rw [hchan] at hopen
  cases hopen

end

/-! ### Both directions -/

def InOrder (n : Net) : Prop := ∀ r, Directed (n.side r) (n.side r.other) (n.flight r) (n.flight r.other)

/-- The network neither loses nor reorders a datagram, and no `write` on an open channel gives up waiting. A second copy of a
datagram comes right behind the first. -/
def Reliable (n : Net) : Event → Prop
  | .deliver _ i => i = 0
  | .drop .. => False
  | .dup p i => i + 1 = (n.flight p.other).length
  | .writeTimeout p => (n.side p).ch.chan = false
  | _ => True

instance (n : Net) : (e : Event) → Decidable (Reliable n e)
  | .deliver _ i => inferInstanceAs (Decidable (i = 0))
  | .drop .. => isFalse id
  | .dup p i => inferInstanceAs (Decidable (i + 1 = (n.flight p.other).length))
  | .writeTimeout p => inferInstanceAs (Decidable ((n.side p).ch.chan = false))
  | .write .. | .writeNext _ | .writeWake _ | .read .. | .readWake _ | .syn .. | .retransmit _ | .close _ | .closeTask _ =>
    isTrue trivial

section
variable {n n' : Net} {r : Peer} {s' : Side} {sent : List Packet} {pkt : Packet}

/-- One endpoint moves: in one direction it is the sender, in the other the receiver. -/
theorem InOrder.put (hs : Directed s' (n.side r.other) (n.flight r ++ sent) (n.flight r.other))
    (hu : Directed (n.side r.other) s' (n.flight r.other) (n.flight r ++ sent)) : InOrder (n.put r s' sent) := by
  intro q
  by_cases hq : q = r
  · subst hq
    rw [Net.put_side, Net.put_side_other, Net.put_flight, Net.put_flight_other]
    exact hs
  · obtain rfl : q = r.other := by
      cases q <;> cases r <;> first | rfl | exact absurd rfl hq
    rw [Peer.other_other, Net.put_side, Net.put_side_other, Net.put_flight, Net.put_flight_other]
    exact hu

/-- The same with a datagram taken off the wire. -/
theorem InOrder.receive {left : List Packet} (hs : Directed s' (n.side r.other) (n.flight r ++ sent) left)
    (hu : Directed (n.side r.other) s' left (n.flight r ++ sent)) :
    InOrder (({ n with flight := Function.update n.flight r.other left } : Net).put r s' sent) := by
  apply InOrder.put
  · simp only [Function.update_self, Function.update_of_ne r.other_ne.symm]
    exact hs
  · simp only [Function.update_self, Function.update_of_ne r.other_ne.symm]
    exact hu

theorem InOrder.incoming (h : InOrder n) (r : Peer) :
    Directed (n.side r.other) (n.side r) (n.flight r.other) (n.flight r) := by
  have hother := h r.other
  rwa [Peer.other_other] at hother

/-- An endpoint that is closed, or that this step closes. -/
theorem InOrder.put_closed (h : InOrder n) (hchan : s'.ch.chan = false) (hquiet : ∀ pkt ∈ sent, pkt.Quiet) :
    InOrder (n.put r s' sent) := by
  apply InOrder.put
  · refine (h r).sender (fun hopen => ?_) hquiet
    rw [hchan] at hopen
    cases hopen
  · exact .closed hchan

/-- A step that leaves both halves of its endpoint alone. -/
theorem InOrder.put_same (h : InOrder n) (hs : s'.ch.chan = true → SameSending (n.side r) s')
    (hu : s'.ch.chan = true → SameReceiving (n.side r) s') : InOrder (n.put r s' []) := by
  apply InOrder.put
  · exact (h r).sender hs fun pkt hpkt => absurd hpkt List.not_mem_nil
  · exact (h.incoming r).receiver_silent hu fun pkt hpkt => absurd hpkt List.not_mem_nil

end

section
variable {s : Side}

theorem SameReceiving.trySend (hopen : s.ch.chan = true) (dp : DataPacket) (rest : List UInt8) :
    SameReceiving s (s.trySend dp rest).1 := by
  rw [Side.trySend]
  split_ifs
  · exact .of_alarm hopen (.of_eq rfl rfl rfl) rfl fun _ _ hb => hb
  · exact .of_alarm hopen (.of_eq rfl rfl rfl) rfl fun _ _ hb => hb

theorem SameReceiving.writeNext (hopen : s.ch.chan = true) (rest : List UInt8) : SameReceiving s (s.writeNext rest).1 := by
  rw [Side.writeNext, Side.trySend]
  split_ifs <;> exact .of_alarm hopen (.of_eq rfl rfl rfl) rfl fun _ _ hb => hb

private theorem trySend_sent (s : Side) (dp : DataPacket) (rest : List UInt8) :
    ∀ pkt ∈ (s.trySend dp rest).2, pkt = Channel.dataPacket dp := by
  rw [Side.trySend]
  intro pkt hpkt
  split_ifs at hpkt
  · simp only [Channel.sendPacket] at hpkt
    split_ifs at hpkt
    exact List.mem_singleton.mp hpkt
  · simp only [Channel.sendPacket] at hpkt
    split_ifs at hpkt
    cases hpkt
  · cases hpkt

theorem trySend_chan (s : Side) (dp : DataPacket) (rest : List UInt8) : (s.trySend dp rest).1.ch.chan = s.ch.chan := by
  rw [Side.trySend]
  split_ifs <;> rfl

theorem SameSending.readMore (hopen : s.ch.chan = true) (len : Nat) (got : List UInt8) :
    SameSending s (s.readMore len got) := by
  have hfollows : s.writer.Follows s.writer := fun _ _ woken h => ⟨woken, h⟩
  rw [Side.readMore]
  simp only
  split_ifs <;> exact ⟨hopen, rfl, rfl, ⟨rfl, rfl, rfl⟩, rfl, hfollows⟩

/-- A handler that leaves the numbers and the window alone. -/
theorem SameSending.after {o : Outcome} (hkeeps : Channel.KeepsTx s.ch o.ch) (hflow : Channel.SameFlow s.ch o.ch)
    (hopen : o.ch.chan = true) : SameSending s (s.after o) :=
  ⟨hkeeps.chan hopen, hkeeps.nextTxSeq, hkeeps.nextTxIdx, hflow, Writer.waiting_wake _ _, Writer.follows_wake _ _⟩

theorem SameReceiving.after {o : Outcome} (hopen : s.ch.chan = true) (hrx : Channel.SameRx s.ch o.ch)
    (halarm : o.ch.alarm = s.ch.alarm) : SameReceiving s (s.after o) :=
  .of_alarm hopen hrx halarm fun _ _ hb => (Reader.asleep_of_wake hb).1

end

section
variable {n n' : Net} {p : Peer}

theorem InOrder.writeNext {rest : List UInt8} (h : InOrder n) (hrunning : (n.side p).writer = .running rest) :
    InOrder (n.put p ((n.side p).writeNext rest).1 ((n.side p).writeNext rest).2) := by
  have hno : (n.side p).writer.waiting = false := by
    rw [hrunning]
    rfl
  apply InOrder.put
  · exact (h p).writeNext hno rest
  · refine (h.incoming p).receiver_silent (fun hopen => ?_) fun pkt hpkt ap hap => ?_
    · have hchan : (n.side p).ch.chan = true := by
        rw [Side.writeNext, trySend_chan] at hopen
        exact hopen
      exact .writeNext hchan rest
    · rw [trySend_sent _ _ _ pkt hpkt] at hap
      cases hap

theorem InOrder.writeWake {dp : DataPacket} {rest : List UInt8} (h : InOrder n)
    (hblocked : (n.side p).writer = .blocked dp rest true) :
    InOrder (n.put p ((n.side p).trySend dp rest).1 ((n.side p).trySend dp rest).2) := by
  apply InOrder.put
  · exact (h p).trySend hblocked
  · refine (h.incoming p).receiver_silent (fun hopen => ?_) fun pkt hpkt ap hap => ?_
    · rw [trySend_chan] at hopen
      exact .trySend hopen dp rest
    · rw [trySend_sent _ _ _ pkt hpkt] at hap
      cases hap

theorem InOrder.read (h : InOrder n) (len : Nat) (got : List UInt8) : InOrder (n.put p ((n.side p).readMore len got) []) := by
  apply InOrder.put
  · refine (h p).sender (fun hopen => .readMore ?_ len got) fun pkt hpkt => absurd hpkt List.not_mem_nil
    rw [Side.readMore] at hopen
    simp only at hopen
    split_ifs at hopen <;> exact hopen
  · rw [List.append_nil]
    exact (h.incoming p).readMore len got

/-- An open endpoint sends its ack. -/
theorem onSyn_sent {c : Channel} (now : UInt64) (hopen : c.chan = true) :
    (Channel.onSyn now false c).sent = [Channel.ackDatagram (Channel.onSyn now false c).ch.rxAckPack] := by
  rw [Channel.onSyn, Channel.sendAck]
  simp only [Bool.false_eq_true, if_false, hopen, if_true]
  split_ifs <;> rfl

/-- The acks of an open endpoint ask for nothing. -/
theorem onSyn_quiet (h : InOrder n) (now : UInt64) : ∀ pkt ∈ (Channel.onSyn now false (n.side p).ch).sent, pkt.Quiet := by
  intro pkt hpkt
  obtain ⟨hack, hopen⟩ := Channel.onSyn_alive_sent now _ pkt hpkt
  obtain ⟨seq, time, hsame⟩ := (Channel.onSyn_alive_frame now (n.side p).ch).2.2.ack
  rw [hack, hsame]
  intro _
  simp only [(h.incoming p hopen).1.gapless.missed]
  decide

theorem InOrder.syn (h : InOrder n) (now : UInt64) (expired : Bool) :
    InOrder (n.handle p ((n.side p).ch.onSyn now expired)) := by
  cases expired with
  | true =>
    obtain ⟨hsent, hchan, -⟩ := Channel.onSyn_expired_frame now (n.side p).ch
    apply h.put_closed hchan
    rw [hsent]
    exact fun pkt hpkt => absurd hpkt List.not_mem_nil
  | false =>
    obtain ⟨hkeeps, hflow, hrx⟩ := Channel.onSyn_alive_frame now (n.side p).ch
    by_cases hopen : (n.side p).ch.chan = true
    · have hgap := (h.incoming p hopen).1.gapless
      obtain ⟨seq, time, hack⟩ := hrx.ack
      apply InOrder.put
      · exact (h p).sender (.after hkeeps hflow) (onSyn_quiet h now)
      · refine (h.incoming p).receiver (fun _ => .after hopen hrx (Channel.onSyn_alarm now _)) fun _ lo hlo => ?_
        rw [onSyn_sent now hopen, hack]
        exact ⟨_, .ack hgap.flags hgap.startSeq rfl hlo .nil, Nat.le_refl _⟩
    · have hchan : (Channel.onSyn now false (n.side p).ch).ch.chan = false := by
        rw [hrx.chan]
        simpa using hopen
      exact h.put_closed hchan (onSyn_quiet h now)

/-- An open endpoint has not been asked for packets. -/
theorem InOrder.freed_of_task (h : InOrder n) (htask : (n.side p).ch.retranTask = true) : ¬ (n.side p).ch.chan = true := by
  intro hopen
  have hcalm := (h.incoming p hopen).1.calm.2.1
  rw [htask] at hcalm
  cases hcalm

theorem retransmitStep_quiet (h : InOrder n) (htask : (n.side p).ch.retranTask = true) :
    ∀ pkt ∈ (n.side p).ch.retransmitStep.sent, pkt.Quiet :=
  fun pkt hpkt => absurd (Channel.retransmitStep_sent _ pkt hpkt).1 (h.freed_of_task htask)

theorem InOrder.retransmit (h : InOrder n) (htask : (n.side p).ch.retranTask = true) :
    InOrder (n.handle p (n.side p).ch.retransmitStep) := by
  obtain ⟨-, -, hrx⟩ := Channel.retransmitStep_frame (n.side p).ch
  have hchan : (n.side p).ch.retransmitStep.ch.chan = false := by
    rw [hrx.chan]
    simpa using h.freed_of_task htask
  exact h.put_closed hchan (retransmitStep_quiet h htask)

theorem close_quiet (sendClose : Bool) (c : Channel) : ∀ pkt ∈ (c.close sendClose).sent, pkt.Quiet := by
  intro pkt hpkt
  simp only [Channel.close] at hpkt
  split_ifs at hpkt
  · rw [List.mem_singleton.mp hpkt]
    exact trivial
  · cases hpkt

/-- An open endpoint answers the first datagram on the wire with an ack2 at most. -/
theorem onRecv_quiet {pkt : Packet} {left : List Packet} (h : InOrder n) (hwire : n.flight p.other = pkt :: left)
    (hopen : (n.side p).ch.chan = true) : ∀ pkt' ∈ ((n.side p).ch.onRecv pkt).sent, pkt'.Quiet := by
  have hu := h.incoming p
  rw [hwire] at hu
  obtain ⟨hconveys, -⟩ := hu hopen
  intro pkt' hpkt
  cases pkt with
  | data w seq payload idx =>
    rw [Channel.onRecv, @Conveys.handleData_sent _ _ _ ⟨w, seq, payload, 0, idx⟩ hconveys] at hpkt
    cases hpkt
  | ack ap =>
    by_cases hflags : ap.flags = .ack
    · rw [Channel.onRecv, hflags] at hpkt
      exact handleAck_quiet ap _ pkt' hpkt
    · rw [(Channel.onRecv_other hflags _).1] at hpkt
      cases hpkt
  | nack np => cases hpkt
  | close => cases hpkt

/-- The first datagram on the wire reaches an open endpoint. -/
theorem InOrder.recv {pkt : Packet} {left : List Packet} (h : InOrder n) (hwire : n.flight p.other = pkt :: left)
    (hopen : (n.side p).ch.chan = true) (hno : pkt ≠ .close) :
    InOrder (({ n with flight := Function.update n.flight p.other left } : Net).handle p ((n.side p).ch.onRecv pkt)) := by
  have hs := h p
  have hu := h.incoming p
  rw [hwire] at hs hu
  obtain ⟨hconveys, -⟩ := hu hopen
  cases pkt with
  | data w seq payload idx =>
    apply InOrder.receive
    · refine (hs.skipBack fun ap hap => (by cases hap)).sender (.after ?_ ?_) ?_
      · exact Channel.handleData_keepsTx _ _
      · exact Channel.handleData_sameFlow _ _
      · exact onRecv_quiet h hwire hopen
    · exact @Directed.handleData _ _ _ _ ⟨w, seq, payload, 0, idx⟩ hu hopen
  | ack ap =>
    have hdata := hu.skipWire fun w seq payload idx hd => (by cases hd)
    obtain ⟨top, hqueue, -⟩ := hconveys.queue
    cases hqueue with
    | ack hmissed =>
      by_cases hflags : ap.flags = .ack
      · have hrecv : (n.side p).ch.onRecv (.ack ap) = (n.side p).ch.handleAck ap := by
          rw [Channel.onRecv, hflags]
        rw [hrecv]
        apply InOrder.receive
        · exact hs.handleAck hopen hflags
        · refine hdata.receiver_silent (fun _ => .after hopen (Channel.handleAck_frame ap _).2.1 ?_) fun pkt hpkt ap' hap => ?_
          · exact Channel.handleAck_alarm (hmissed hflags) _ hconveys.calm.1
          · obtain ⟨ap2, hap2, hflags2⟩ := Channel.handleAck_sent ap _ pkt hpkt
            cases hap2.symm.trans hap
            rw [hflags2]
            exact PacketType.noConfusion
      · obtain ⟨hnone, hkeeps, hflow, hrx, halarm⟩ := Channel.onRecv_other hflags (n.side p).ch
        apply InOrder.receive
        · refine (hs.skipBack fun ap' hap => ?_).sender (.after hkeeps hflow) ?_
          · cases hap
            exact hflags
          · rw [hnone]
            exact fun pkt hpkt => absurd hpkt List.not_mem_nil
        · refine hdata.receiver_silent (fun _ => .after hopen hrx halarm) ?_
          rw [hnone]
          exact fun pkt hpkt => absurd hpkt List.not_mem_nil
  | nack np =>
    obtain ⟨top, hqueue, -⟩ := hconveys.queue
    cases hqueue
  | close => exact absurd rfl hno

/-- The wire to one endpoint alone changes. -/
theorem InOrder.rewire {left : List Packet} (hs : Directed (n.side p) (n.side p.other) (n.flight p) left)
    (hu : Directed (n.side p.other) (n.side p) left (n.flight p)) :
    InOrder { n with flight := Function.update n.flight p.other left } := by
  have hput := @InOrder.receive n p (n.side p) [] left (by rwa [List.append_nil]) (by rwa [List.append_nil])
  rw [Net.put] at hput
  simp only [List.append_nil, Function.update_eq_self] at hput
  exact hput

theorem InOrder.deliver {pkt : Packet} {left : List Packet} (h : InOrder n) (hwire : n.flight p.other = pkt :: left) :
    InOrder (n.deliver p pkt left) := by
  simp only [Net.deliver]
  split_ifs with hopen
  · split
    · -- a close packet only posts the task
      have hs := h p
      have hu := h.incoming p
      rw [hwire] at hs hu
      have hfollows : (n.side p).writer.Follows (n.side p).writer := fun _ _ woken hb => ⟨woken, hb⟩
      apply InOrder.receive
      · refine (hs.skipBack fun ap hap => (by cases hap)).sender (fun _ => ?_) fun pkt hpkt => absurd hpkt List.not_mem_nil
        exact ⟨hopen, rfl, rfl, .refl _, rfl, hfollows⟩
      · refine (hu.skipWire fun w seq payload idx hd => (by cases hd)).receiver_silent (fun _ => ?_)
          fun pkt hpkt => absurd hpkt List.not_mem_nil
        exact .of_alarm hopen (.of_eq rfl rfl rfl) rfl fun _ _ hb => hb
    · rename_i hno
      exact h.recv hwire hopen hno
  · -- a freed channel has no receive handler
    have hfreed : (n.side p).ch.chan = false := by simpa using hopen
    apply InOrder.rewire
    · exact (h p).sender_closed hfreed left
    · exact .closed hfreed

theorem eq_append_of_last {l : List Packet} {pkt : Packet} {i : Nat} (hi : l[i]? = some pkt) (hlast : i + 1 = l.length) :
    ∃ l', l = l' ++ [pkt] := by
  refine ⟨l.take i, ?_⟩
  obtain ⟨hlt, rfl⟩ := List.getElem?_eq_some_iff.mp hi
  rw [List.take_append_getElem, List.take_of_length_le hlast.ge]

/-- A second copy right behind the first. -/
theorem InOrder.dup {pkt : Packet} {i : Nat} (h : InOrder n) (hsent : (n.flight p.other)[i]? = some pkt)
    (hlast : i + 1 = (n.flight p.other).length) :
    InOrder { n with flight := Function.update n.flight p.other (n.flight p.other ++ [pkt]) } := by
  obtain ⟨l, hwire⟩ := eq_append_of_last hsent hlast
  have hs := h p
  have hu := h.incoming p
  rw [hwire] at hs hu ⊢
  apply InOrder.rewire
  · exact hs.twiceBack
  · exact hu.twiceWire

theorem InOrder.step {e : Event} (h : InOrder n) (hok : Reliable n e) (hs : n.step e = some n') : InOrder n' := by
  have hfollows (w : Writer) : w.Follows w := fun _ _ woken hb => ⟨woken, hb⟩
  have hnone : ∀ pkt ∈ ([] : List Packet), pkt.Quiet := fun pkt hpkt => absurd hpkt List.not_mem_nil
  cases Net.takes_of_step hs with
  | write _ hidle =>
    refine h.put_same (fun hopen => ⟨hopen, rfl, rfl, .refl _, ?_, Writer.follows_next _ _⟩) fun hopen => ?_
    · rw [hidle]
      exact Writer.waiting_next _
    · exact .of_alarm hopen (.of_eq rfl rfl rfl) rfl fun _ _ hb => hb
  | writeNext _ hrunning => exact h.writeNext hrunning
  | writeWake _ hblocked => exact h.writeWake hblocked
  | writeThrow _ _ hfreed => exact h.put_closed hfreed hnone
  | writeTimeout => exact h.put_closed hok hnone
  | read => exact h.read _ _
  | readWake => exact h.read _ _
  | readThrow _ _ hfreed => exact h.put_closed hfreed hnone
  | syn => exact h.syn _ _
  | retransmit _ htask => exact h.retransmit htask
  | close => exact h.put_closed rfl (close_quiet _ _)
  | closeTask => exact h.put_closed rfl hnone
  | @deliver p i pkt _ hsent =>
    obtain rfl : i = 0 := hok
    cases hwire : n.flight p.other with
    | nil =>
      rw [hwire] at hsent
      cases hsent
    | cons pkt' left =>
      rw [hwire] at hsent
      cases hsent
      exact h.deliver hwire
  | drop => exact hok.elim
  | dup hsent => exact h.dup hsent hok

theorem InOrder.init {mwp : Peer → BitVec 16} (hm : ∀ p, (mwp p).toNat < 2 ^ 15) : InOrder (Net.init mwp) := by
  intro r _
  refine ⟨⟨⟨rfl, rfl, rfl, rfl, rfl, hm _⟩, ⟨rfl, rfl, rfl⟩, fun _ _ hb => (by cases hb), 0, .nil, Nat.zero_le _, fun _ => rfl⟩,
    fun _ => ⟨rfl, rfl, rfl, Nat.le_max_left _ _, fun _ => ⟨Nat.zero_le 1, .inl ⟨rfl, rfl⟩⟩, Nat.zero_le _, ⟨1, .nil, Nat.le_refl 1⟩,
      fun _ _ _ hb => (by cases hb)⟩⟩

end
end Tornet.Udt
