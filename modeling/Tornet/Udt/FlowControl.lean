import Tornet.Udt.Delivery

/-! Flow control between two honest endpoints: what the sender transmits fits into the
receiver's window at the time it arrives. -/
namespace Tornet.Udt
open Library Runs

/-! ### The byte history is not read -/

def Net.withPassed (n : Net) (f : Peer → List UInt8) : Net :=
  { n with side := fun p => { n.side p with passed := f p } }

/-- The part of a buffer that a 32-bit length counts. -/
def Event.counted : Event → Event
  | .write p bytes => .write p (bytes.take (bytes.length % 2 ^ 32))
  | e => e

namespace Side

def withPassed (s : Side) (l : List UInt8) : Side := { s with passed := l }

@[simp] theorem withPassed_ch (s : Side) (l : List UInt8) : (s.withPassed l).ch = s.ch := rfl

@[simp] theorem withPassed_writer (s : Side) (l : List UInt8) : (s.withPassed l).writer = s.writer := rfl

@[simp] theorem withPassed_reader (s : Side) (l : List UInt8) : (s.withPassed l).reader = s.reader := rfl

@[simp] theorem withPassed_closeTask (s : Side) (l : List UInt8) :
    (s.withPassed l).closeTask = s.closeTask := rfl

@[simp] theorem withPassed_passed (s : Side) (l : List UInt8) : (s.withPassed l).passed = l := rfl

@[simp] theorem withPassed_chunks (s : Side) (l : List UInt8) : (s.withPassed l).chunks = s.chunks := rfl

@[simp] theorem withPassed_returned (s : Side) (l : List UInt8) :
    (s.withPassed l).returned = s.returned := rfl

private theorem withPassed_trySend (s : Side) (l : List UInt8) (dp : DataPacket) (rest : List UInt8) :
    (s.withPassed l).trySend dp rest = ((s.trySend dp rest).1.withPassed l, (s.trySend dp rest).2) := by
  by_cases hc : s.ch.canSend = true
  · have hs : s.trySend dp rest = _ := if_pos hc
    rw [hs]
    exact if_pos hc
  · have hs : s.trySend dp rest = _ := if_neg hc
    rw [hs]
    exact if_neg hc

private theorem withPassed_writeNext (s : Side) (l rest : List UInt8) :
    (s.withPassed l).writeNext rest = ((s.writeNext rest).1.withPassed l, (s.writeNext rest).2) := by
  rw [writeNext]
  exact withPassed_trySend { s with
    ch := (s.ch.takePacket (rest.take maxPayload)).1,
    chunks := s.chunks ++ [rest.take maxPayload] } l _ _

private theorem withPassed_readMore (s : Side) (l : List UInt8) (len : Nat) (got : List UInt8) :
    (s.withPassed l).readMore len got = (s.readMore len got).withPassed l := by
  by_cases hl : (Channel.readLoop s.ch.rxAckPack s.ch.rxWin len).2.1 = 0
  · have hs : s.readMore len got = _ := if_pos hl
    rw [hs]
    exact if_pos hl
  · have hs : s.readMore len got = _ := if_neg hl
    rw [hs]
    exact if_neg hl

end Side

namespace Net

@[simp] theorem withPassed_side (n : Net) (f : Peer → List UInt8) (p : Peer) :
    (n.withPassed f).side p = (n.side p).withPassed (f p) := rfl

@[simp] theorem withPassed_flight (n : Net) (f : Peer → List UInt8) :
    (n.withPassed f).flight = n.flight := rfl

theorem withPassed_put (n : Net) (f : Peer → List UInt8) (p : Peer) (s : Side) (sent : List Packet) :
    (n.withPassed f).put p (s.withPassed (f p)) sent = (n.put p s sent).withPassed f := by
  simp only [withPassed, put]
  congr 1
  funext q
  by_cases hq : q = p
  · subst hq
    simp [Side.withPassed]
  · simp [Function.update_of_ne hq]

theorem withPassed_handle (n : Net) (f : Peer → List UInt8) (p : Peer) (o : Outcome) :
    (n.withPassed f).handle p o = (n.handle p o).withPassed f :=
  withPassed_put n f p ((n.side p).after o) o.sent

private theorem withPassed_deliver (n : Net) (f : Peer → List UInt8) (p : Peer) (pkt : Packet) (left : List Packet) :
    (n.withPassed f).deliver p pkt left = (n.deliver p pkt left).withPassed f := by
  by_cases hc : (n.side p).ch.chan = true
  · have hput := withPassed_put { n with flight := Function.update n.flight p.other left } f p
    cases pkt with
    | close =>
      have hd : n.deliver p .close left = _ := if_pos hc
      rw [hd, ← hput]
      exact if_pos hc
    | data w seq payload idx =>
      have hd : n.deliver p (.data w seq payload idx) left = _ := if_pos hc
      rw [hd, Net.handle, ← hput]
      exact if_pos hc
    | ack ap =>
      have hd : n.deliver p (.ack ap) left = _ := if_pos hc
      rw [hd, Net.handle, ← hput]
      exact if_pos hc
    | nack np =>
      have hd : n.deliver p (.nack np) left = _ := if_pos hc
      rw [hd, Net.handle, ← hput]
      exact if_pos hc
  · have hd : n.deliver p pkt left = _ := if_neg hc
    rw [hd]
    exact if_neg hc

/-- Writing what a 32-bit length counts of the buffer. -/
private theorem step_counted_write (n : Net) (f : Peer → List UInt8) (p : Peer) (bytes : List UInt8) :
    ∃ g, (n.withPassed f).step (Event.counted (.write p bytes)) =
      (n.step (.write p bytes)).map fun m => m.withPassed g := by
  have hlt : bytes.length % 2 ^ 32 < 2 ^ 32 := Nat.mod_lt _ (by decide)
  have hle : bytes.length % 2 ^ 32 ≤ bytes.length := Nat.mod_le _ _
  set cut := bytes.take (bytes.length % 2 ^ 32) with hcut
  have hlen : cut.length % 2 ^ 32 = bytes.length % 2 ^ 32 := by
    rw [hcut, List.length_take, Nat.min_eq_left hle, Nat.mod_eq_of_lt hlt]
  have htake : cut.take (cut.length % 2 ^ 32) = cut := by
    rw [hlen, hcut, List.take_take, Nat.min_self]
  refine ⟨Function.update f p (f p ++ cut), ?_⟩
  have hput : (n.withPassed f).put p (((n.side p).withPassed (f p)).startWrite cut) [] =
      (n.put p ((n.side p).startWrite bytes) []).withPassed (Function.update f p (f p ++ cut)) := by
    simp only [withPassed, put]
    congr 1
    funext q
    by_cases hq : q = p
    · subst hq
      simp only [Function.update_self, Side.startWrite, Side.withPassed, htake, ← hcut]
    · simp [Function.update_of_ne hq]
  simp only [Event.counted, step, withPassed_side, Side.withPassed_ch, Side.withPassed_writer, ← hcut, hput]
  split_ifs
  · rfl
  · cases (n.side p).writer <;> rfl

/-- A step is the same step whatever was written before, and whatever a 32-bit length does not
count of the buffer written. -/
theorem step_counted (n : Net) (f : Peer → List UInt8) (e : Event) :
    ∃ g, (n.withPassed f).step e.counted = (n.step e).map fun m => m.withPassed g := by
  cases e with
  | write p bytes => exact step_counted_write n f p bytes
  | writeNext p =>
    refine ⟨f, ?_⟩
    cases hx : (n.side p).ch.exited <;> cases hw : (n.side p).writer <;>
      simp [Event.counted, step, hx, hw, Side.withPassed_writeNext, withPassed_put]
  | writeWake p =>
    refine ⟨f, ?_⟩
    have hidle : (n.withPassed f).put p { (n.side p).withPassed (f p) with writer := .idle } [] = _ :=
      withPassed_put n f p { n.side p with writer := .idle } []
    cases hx : (n.side p).ch.exited <;> cases hw : (n.side p).writer with
    | blocked dp rest woken =>
      cases woken <;> cases hc : (n.side p).ch.chan <;>
        simp [Event.counted, step, hx, hw, hc, Side.withPassed_trySend, withPassed_put, ← hidle]
    | _ => simp [Event.counted, step, hx, hw]
  | writeTimeout p =>
    refine ⟨f, ?_⟩
    have hidle : (n.withPassed f).put p { (n.side p).withPassed (f p) with writer := .idle } [] = _ :=
      withPassed_put n f p { n.side p with writer := .idle } []
    cases hx : (n.side p).ch.exited <;> cases hw : (n.side p).writer with
    | blocked dp rest woken => cases woken <;> simp [Event.counted, step, hx, hw, ← hidle]
    | _ => simp [Event.counted, step, hx, hw]
  | read p len =>
    refine ⟨f, ?_⟩
    cases hx : (n.side p).ch.exited <;> cases hr : (n.side p).reader <;>
      simp [Event.counted, step, hx, hr, Side.withPassed_readMore, withPassed_put]
  | readWake p =>
    refine ⟨f, ?_⟩
    have hidle : (n.withPassed f).put p { (n.side p).withPassed (f p) with reader := .idle } [] = _ :=
      withPassed_put n f p { n.side p with reader := .idle } []
    cases hx : (n.side p).ch.exited <;> cases hr : (n.side p).reader with
    | blocked len got woken =>
      cases woken <;> cases hc : (n.side p).ch.chan <;>
        simp [Event.counted, step, hx, hr, hc, Side.withPassed_readMore, withPassed_put, ← hidle]
    | idle => simp [Event.counted, step, hx, hr]
  | syn p now expired =>
    refine ⟨f, ?_⟩
    cases hx : (n.side p).ch.exited <;> cases ht : (n.side p).ch.synTask <;>
      simp [Event.counted, step, hx, ht, withPassed_handle]
  | retransmit p =>
    refine ⟨f, ?_⟩
    cases hx : (n.side p).ch.exited <;> cases ht : (n.side p).ch.retranTask <;>
      simp [Event.counted, step, hx, ht, withPassed_handle]
  | close p =>
    refine ⟨f, ?_⟩
    cases hx : (n.side p).ch.exited <;> simp [Event.counted, step, hx, withPassed_handle]
  | closeTask p =>
    refine ⟨f, ?_⟩
    have hput := withPassed_put n f p { (n.side p).after ((n.side p).ch.close false) with closeTask := false } []
    cases hx : (n.side p).ch.exited <;> cases ht : (n.side p).closeTask <;>
      simp [Event.counted, step, hx, ht]
    exact hput
  | deliver p i =>
    refine ⟨f, ?_⟩
    cases hx : (n.side p).ch.exited <;>
      simp [Event.counted, step, hx, withPassed_deliver, Function.comp_def]
  | drop p i =>
    refine ⟨f, ?_⟩
    by_cases hi : i < (n.flight p.other).length
    · simp [Event.counted, step, hi]
      rfl
    · simp [Event.counted, step, hi]
  | dup p i =>
    refine ⟨f, ?_⟩
    simp only [Event.counted, step, withPassed_flight, Option.map_map]
    rfl

end Net

/-! ### The invariant without the byte history -/

/-- Where `can_send` lets a packet go, the number taken for it is less than half the number
space ahead of the window start last acknowledged. -/
def SendsNear (n : Net) : Event → Prop
  | .writeNext p => SendNear ((n.side p).ch.takePacket []).1
  | .writeWake p => SendNear (n.side p).ch
  | _ => True

instance (n : Net) : (e : Event) → Decidable (SendsNear n e)
  | .writeNext p => inferInstanceAs (Decidable (SendNear ((n.side p).ch.takePacket []).1))
  | .writeWake p => inferInstanceAs (Decidable (SendNear (n.side p).ch))
  | .write .. | .writeTimeout _ | .read .. | .readWake _ | .syn .. | .retransmit _ | .close _
  | .closeTask _ | .deliver .. | .drop .. | .dup .. => isTrue trivial

variable {n n' : Net} {e : Event}

def FlowInv (n : Net) : Prop := ∃ f, Inv (n.withPassed f)

theorem FlowInv.init {mwp : Peer → BitVec 16} (hm : ∀ p, (mwp p).toNat ≤ 4096) : FlowInv (Net.init mwp) :=
  ⟨fun _ => [], Inv.init hm⟩

theorem FlowInv.step (h : FlowInv n) (hy : YoungData n e) (hr : SendsNear n e)
    (hs : n.step e = some n') : FlowInv n' := by
  obtain ⟨f, hf⟩ := h
  obtain ⟨g, hg⟩ := n.step_counted f e
  rw [hs, Option.map_some] at hg
  have hyoung : YoungData (n.withPassed f) e.counted := by
    cases e <;> exact hy
  have hrange : SendsInRange (n.withPassed f) e.counted := by
    cases e with
    | write p bytes =>
      change (bytes.take (bytes.length % 2 ^ 32)).length < 2 ^ 32
      rw [List.length_take]
      omega
    | _ => exact hr
  exact ⟨g, hf.step hyoung hrange hg⟩

/-! ### Every transmitted packet fits -/

/-- `handle_data` takes one of its branches 'Window not big enough': the packet lies behind the
end of the window and beyond its limit. -/
def Channel.tooMuch (c : Channel) (seq : SeqNum) : Bool :=
  (seq == c.rxAckPack.rxWinEnd + 1 || SeqNum.gt seq (c.rxAckPack.rxWinEnd + 1)) &&
    SeqNum.gt seq (c.rxAckPack.rxWinStart + c.rxAckPack.rxWinSize)

/-- In these branches the packet is dropped. -/
theorem Channel.storeData_tooMuch {c : Channel} {dp : DataPacket} (h : c.tooMuch dp.seq = true) :
    (storeData dp c).ch.rxWin = c.rxWin ∧ (storeData dp c).sent = [] := by
  simp only [tooMuch, Bool.and_eq_true, Bool.or_eq_true, beq_iff_eq] at h
  obtain ⟨hend, hlimit⟩ := h
  rw [storeData]
  simp only
  rw [if_pos hlimit, if_pos hlimit]
  rcases hend with hend | hend
  · rw [if_pos hend]
    exact ⟨rfl, rfl⟩
  · rw [if_pos hend, ite_self]
    exact ⟨rfl, rfl⟩

/-- A data packet that reaches an open channel is at most `rx_win_size` ahead of the start of
the window, and takes none of the branches for a transmitter that sent too much. -/
def Fits (n : Net) : Event → Prop
  | .deliver p i => (n.side p).ch.chan = true → ∀ w seq payload idx,
    (n.flight p.other)[i]? = some (.data w seq payload idx) →
      seq = seqOf idx ∧
      idx ≤ (n.side p).ch.rxAckPack.rxWinStartIdx + (n.side p).ch.rxAckPack.rxWinSize.toNat ∧
      (n.side p).ch.tooMuch seq = false
  | _ => True

/-- A young genuine packet fits. -/
theorem FlowInv.fits (h : FlowInv n) (hy : YoungData n e) : Fits n e := by
  cases e with
  | deliver p i =>
    intro hc w seq payload idx hi
    obtain ⟨f, hf⟩ := h
    obtain ⟨lost, hl⟩ := hf p.other
    have hrx := hl.rx_other
    have hgen : Genuine (n.side p.other).chunks (n.side p.other).top
        (n.side p).ch.rxAckPack.rxWinStartIdx (n.side p).ch.rxAckPack.rxWinSize.toNat lost seq payload idx := by
      have hdata := hl.data _ (List.mem_of_getElem? hi)
      rwa [Peer.other_other] at hdata
    have hyoung := hy w seq payload idx hi
    have hsmall := hrx.small
    simp only [Net.withPassed_side, Side.withPassed_ch] at hsmall
    have hplaced : Channel.Placed { rxWinStart := w, seq := seq, data := payload, idx := idx } (n.side p).ch :=
      { window := hrx.window hc
        seq := hgen.seq
        ahead := hgen.window
        young := by
          have hpos := hgen.pos
          have hzero := hrx.zero
          simp only [Net.withPassed_side, Side.withPassed_ch] at hzero ⊢
          omega }
    refine ⟨hgen.seq, hgen.window, ?_⟩
    rw [Bool.eq_false_iff]
    intro htoo
    simp only [Channel.tooMuch, Bool.and_eq_true, Bool.or_eq_true, beq_iff_eq] at htoo
    obtain ⟨hend | hend, hlimit⟩ := htoo
    · have hidx := hplaced.eq_next_iff.mp hend
      exact hplaced.not_gt_limit (by omega) hlimit
    · have hidx := hplaced.gt_next_iff.mp hend
      exact hplaced.not_gt_limit (by omega) hlimit
  | _ => trivial

/-- In every run with young data in which no packet is sent half the number space ahead of
the acknowledged window, every data packet received fits into the receiver's window. -/
theorem received_fits (mwp : Peer → BitVec 16) (hm : ∀ p, (mwp p).toNat ≤ 4096) (es : List Event)
    (hg : Guarded Net.step (fun n e => YoungData n e ∧ SendsNear n e) (Net.init mwp) es) :
    Guarded Net.step Fits (Net.init mwp) es :=
  guarded_of_invariant FlowInv (fun _ _ _ h hok hs => h.step hok.1 hok.2 hs)
    (fun _ _ h hok => h.fits hok.1) (FlowInv.init hm) hg

theorem received_fits_two : Guarded Net.step Fits (Net.init fun _ => 2)
    [.write .a [1], .writeNext .a, .dup .b 0, .deliver .b 0, .read .b 1, .deliver .b 0] :=
  received_fits _ (fun _ => by decide) _ (by decide +kernel)

/-- Packets 1 to 4 are sent; 1, 3 and 4 arrive, and the nack of 2 has shrunk the sender's
window to 3 before 4 arrives. -/
def shrunk : List Event :=
  [.write .a [1], .writeNext .a, .deliver .b 0, .syn .b 0 false, .deliver .a 0, .syn .b 0 false, .deliver .a 0,
    .write .a [2], .writeNext .a, .write .a [3], .writeNext .a, .write .a [4], .writeNext .a,
    .deliver .b 3, .deliver .a 0, .deliver .b 3]

def shrunkNet : Net := (run Net.step (Net.init fun _ => 4096) shrunk).getD (Net.init fun _ => 4096)

theorem run_shrunk : run Net.step (Net.init fun _ => 4096) shrunk = some shrunkNet := by
  have hsome : (run Net.step (Net.init fun _ => 4096) shrunk).isSome = true := by decide +kernel
  exact (Option.getD_of_ne_none (Option.isSome_iff_ne_none.mp hsome) _).symm

/-- The next 32768 writes find the window full. -/
theorem run_shrunk_stalled : run Net.step shrunkNet (stalledWrites 32768) =
    some (shrunkNet.put .a ((shrunkNet.side .a).stalled 32768) []) := by
  have hnext : (shrunkNet.side .a).ch.nextTxSeq = seqOf 4 := by decide +kernel
  have hlimit : (shrunkNet.side .a).ch.lastRxAck.rxWinStart + (shrunkNet.side .a).ch.txWinSize = seqOf 4 := by
    decide +kernel
  apply run_stalledWrites (by decide +kernel) (by decide +kernel)
  intro i hi
  rw [hnext, hlimit, ← SeqNum.seqOf_add, SeqNum.lt_seqOf ⟨by omega, by omega⟩, decide_eq_false_iff_not]
  omega

/-- Packet 32773 is sent: its number has passed `can_send` around the circle. It arrives at once, and
the receiver takes it for more than the transmitter may send. -/
theorem received_tooMuch : ∃ n, run Net.step (Net.init fun _ => 4096)
      (shrunk ++ stalledWrites 32768 ++ [.write .a [9], .writeNext .a]) = some n ∧
    Guarded Net.step YoungData (Net.init fun _ => 4096)
      (shrunk ++ stalledWrites 32768 ++ [.write .a [9], .writeNext .a] ++ [.deliver .b 3]) ∧
    (n.side .b).ch.chan = true ∧ (n.flight .a)[3]? = some (.data 1 (seqOf 32773) [9] 32773) ∧
    (n.side .b).ch.rxAckPack.rxWinStartIdx + (n.side .b).ch.rxAckPack.rxWinSize.toNat < 32773 ∧
    (n.side .b).ch.tooMuch (seqOf 32773) = true := by
  have hlast : (run Net.step (shrunkNet.put .a ((shrunkNet.side .a).stalled 32768) [])
        [.write .a [9], .writeNext .a]).map
      (fun n => ((n.side .b).ch.chan, (n.flight .a)[3]?,
        decide ((n.side .b).ch.rxAckPack.rxWinStartIdx + (n.side .b).ch.rxAckPack.rxWinSize.toNat < 32773),
        (n.side .b).ch.tooMuch (seqOf 32773))) =
      some (true, some (.data 1 (seqOf 32773) [9] 32773), true, true) := by decide +kernel
  have hyoung : Guarded Net.step YoungData (shrunkNet.put .a ((shrunkNet.side .a).stalled 32768) [])
      [.write .a [9], .writeNext .a, .deliver .b 3] := by decide +kernel
  obtain ⟨n, hrun, hn⟩ := Option.map_eq_some_iff.mp hlast
  simp only [Prod.mk.injEq, decide_eq_true_eq] at hn
  obtain ⟨hchan, hflight, hlt, htoo⟩ := hn
  refine ⟨n, run_append_of (run_append_of run_shrunk run_shrunk_stalled) hrun, ?_, hchan, hflight, hlt, htoo⟩
  rw [List.append_assoc (shrunk ++ stalledWrites 32768)]
  exact ((show Guarded Net.step YoungData _ shrunk by decide +kernel).append_of run_shrunk
    (guarded_stalledWrites _ _ fun _ e he => by obtain rfl | rfl | rfl := he <;> trivial)).append_of
      (run_append_of run_shrunk run_shrunk_stalled) hyoung

end Tornet.Udt
