import Tornet.Udt.LaneSteps
import Tornet.Udt.Overrun

/-! In-order delivery: over whole runs of two endpoints and a network that loses,
duplicates and reorders, what is read is a prefix of what was written. -/
namespace Tornet.Udt
open Library Runs

def Inv (n : Net) : Prop := ∀ p, ∃ lost, Lane n p lost

variable {n n' : Net} {r : Peer} {s' : Side} {sent : List Packet}

/-- The sending role of an endpoint that changed to `s'` and sent `sent`. -/
def SenderOk (n : Net) (r : Peer) (s' : Side) (sent : List Packet) : Prop :=
  ∀ lost, Lane n r lost → ∃ lost', Extends (n.side r) s' lost lost' ∧
    TxOk s' (n.side r.other).ch.rxAckPack.rxWinStartIdx
      (n.side r.other).ch.rxAckPack.rxWinSize.toNat lost' ∧
    ∀ pkt ∈ sent, DataOk s'.chunks s'.top (n.side r.other).ch.rxAckPack.rxWinStartIdx
      (n.side r.other).ch.rxAckPack.rxWinSize.toNat lost' pkt

/-- The receiving role of an endpoint that changed to `s'` and sent `sent`. -/
def ReceiverOk (n : Net) (r : Peer) (s' : Side) (sent : List Packet) : Prop :=
  ∀ lost, Lane n r.other lost →
    RxOk s' (n.side r.other).chunks (n.side r.other).top lost (n.side r.other).passed ∧
    s'.ch.rxAckPack.rxWinSize = (n.side r).ch.rxAckPack.rxWinSize ∧
    (n.side r).ch.rxAckPack.rxWinStartIdx ≤ s'.ch.rxAckPack.rxWinStartIdx ∧
    ∀ pkt ∈ sent, AckOk s'.ch.rxAckPack.rxWinStartIdx s'.ch.rxAckPack.rxWinSize pkt

theorem Inv.put (h : Inv n) (htx : SenderOk n r s' sent) (hrx : ReceiverOk n r s' sent) :
    Inv (n.put r s' sent) := by
  intro p
  by_cases hp : p = r
  · subst hp
    obtain ⟨lost, hl⟩ := h p
    obtain ⟨lost', he, ht, hs⟩ := htx lost hl
    exact ⟨lost', hl.putSender he ht hs⟩
  · obtain rfl : p = r.other := by cases p <;> cases r <;> first | rfl | exact absurd rfl hp
    obtain ⟨lost, hl⟩ := h r.other
    obtain ⟨hr, hsize, hstart, hs⟩ := hrx lost hl
    refine ⟨lost, ?_⟩
    have := hl.putReceiver sent hr (by rw [Peer.other_other]; exact hsize)
      (by rw [Peer.other_other]; exact hstart) hs
    rwa [Peer.other_other] at this

theorem Lane.rx_other {lost : Option Nat} (h : Lane n r.other lost) :
    RxOk (n.side r) (n.side r.other).chunks (n.side r.other).top lost (n.side r.other).passed := by
  have := h.rx
  rwa [Peer.other_other] at this

/-- The sending role of a handler that keeps the numbering. -/
theorem SenderOk.handler {o : Outcome} (hk : Channel.KeepsTx (n.side r).ch o.ch)
    (hf : ∀ lost, Lane n r lost → FlowOk o.ch (n.side r.other).ch.rxAckPack.rxWinStartIdx
      (n.side r.other).ch.rxAckPack.rxWinSize.toNat)
    (hs : ∀ pkt ∈ o.sent, ∀ w seq payload idx, pkt ≠ .data w seq payload idx) :
    SenderOk n r ((n.side r).after o) o.sent := by
  intro lost hl
  refine ⟨lost, extends_after _ _ _, hl.tx.after hk (hf lost hl), fun pkt hpkt => ?_⟩
  cases hpk : pkt with
  | data w seq payload idx => exact absurd hpk (hs pkt hpkt w seq payload idx)
  | _ => trivial

/-- The receiving role of a handler that leaves the receive window alone. -/
theorem ReceiverOk.handler {o : Outcome} (hs : Channel.SameRx (n.side r).ch o.ch)
    (ha : ∀ pkt ∈ o.sent, ∀ lost, Lane n r.other lost →
      AckOk o.ch.rxAckPack.rxWinStartIdx o.ch.rxAckPack.rxWinSize pkt) :
    ReceiverOk n r ((n.side r).after o) o.sent := by
  intro lost hl
  obtain ⟨⟨seq, now, hack⟩, _, _⟩ := id hs
  exact ⟨hl.rx_other.same hs, by simp [Side.after, hack], by simp [Side.after, hack],
    fun pkt hpkt => ha pkt hpkt lost hl⟩

theorem ReceiverOk.close {o : Outcome} (hchan : o.ch.chan = false) (hwin : o.ch.rxWin = [])
    (hack : o.ch.rxAckPack = { (n.side r).ch.rxAckPack with missedSeq := [] })
    (hs : ∀ pkt ∈ o.sent, pkt = .close) : ReceiverOk n r ((n.side r).after o) o.sent := by
  intro lost hl
  refine ⟨hl.rx_other.close hchan hwin hack, by simp [Side.after, hack], by simp [Side.after, hack],
    fun pkt hpkt => ?_⟩
  rw [hs pkt hpkt]
  trivial

/-- Nothing changes in the receiving role when only the writer and the numbering do. -/
theorem ReceiverOk.writer (hack : s'.ch.rxAckPack = (n.side r).ch.rxAckPack)
    (hwin : s'.ch.rxWin = (n.side r).ch.rxWin) (hchan : s'.ch.chan = (n.side r).ch.chan)
    (hreader : s'.reader = (n.side r).reader) (hret : s'.returned = (n.side r).returned)
    (hs : ∀ pkt ∈ sent, ∃ w seq payload idx, pkt = .data w seq payload idx) :
    ReceiverOk n r s' sent := by
  intro lost hl
  have h := hl.rx_other
  refine ⟨⟨?_, ?_, ?_, ?_, ?_, ?_, ?_, ?_, ?_, ?_, ?_, ?_⟩, by rw [hack], by rw [hack],
    fun pkt hpkt => ?_⟩
  all_goals try rw [hack]
  all_goals try rw [hwin]
  all_goals try rw [hchan]
  all_goals try rw [hreader, hret]
  · exact h.pos
  · exact h.startLe
  · exact h.endLe
  · exact h.small
  · exact h.zero
  · exact h.flags
  · exact h.lostLe
  · exact h.delivered
  · exact h.closed
  · exact h.window
  · exact h.held
  · exact h.stream
  · obtain ⟨w, seq, payload, idx, rfl⟩ := hs pkt hpkt
    trivial

/-! ### The writer -/

/-- A packet whose number is taken, sent or made to wait. -/
theorem SenderOk.trySend {s : Side} {dp : DataPacket} {rest : List UInt8} {w : Bool}
    (hs : ∀ lost, Lane n r lost → Extends (n.side r) s lost lost ∧
      TxOk s (n.side r.other).ch.rxAckPack.rxWinStartIdx
        (n.side r.other).ch.rxAckPack.rxWinSize.toNat lost)
    (hb : s.writer = .blocked dp rest w) (hnear : SendNear s.ch) :
    SenderOk n r (s.trySend dp rest).1 (s.trySend dp rest).2 := by
  intro lost hl
  obtain ⟨he, ht⟩ := hs lost hl
  obtain ⟨hidx, _, _, _⟩ := ht.blocked dp rest w hb
  have hrx := hl.rx.extend he
  have hlen := ht.nextLen
  have htop := s.top_le
  rw [Side.trySend]
  by_cases hc : s.ch.canSend = true
  · have hstart := hrx.startLe
    have hend := hrx.endLe
    have hlt := ht.window_of_canSend hc hrx.small (by omega) (hnear hc)
    have hwin := ht.win
    have hack := ht.ackLe
    rw [if_pos hc]
    cases hchan : s.ch.chan with
    | true =>
      obtain ⟨ht', he', hg⟩ := ht.send hb (by omega) (fun h0 => by
        have hzero := hrx.zero h0
        obtain ⟨_, hz⟩ := ht.zero h0
        omega)
      refine ⟨lost, he.trans he', ht', fun pkt hpkt => ?_⟩
      simp only [Channel.sendPacket, hchan, if_true, List.mem_singleton] at hpkt
      subst hpkt
      exact hg
    | false =>
      obtain ⟨lost', ht', he'⟩ := ht.giveUp (c := (s.ch.sendPacket dp).1) hb ⟨rfl, rfl⟩
        ⟨rfl, rfl, rfl⟩ (fun h => absurd (hchan ▸ h : (false : Bool) = true) (by decide))
      refine ⟨lost', he.trans he', ht', ?_⟩
      simp [Channel.sendPacket, hchan]
  · rw [if_neg hc]
    obtain ⟨ht', he'⟩ := ht.wait hb
    exact ⟨lost, he.trans he', ht', by simp⟩

theorem ReceiverOk.trySend {s : Side} {dp : DataPacket} {rest : List UInt8}
    (hack : s.ch.rxAckPack = (n.side r).ch.rxAckPack) (hwin : s.ch.rxWin = (n.side r).ch.rxWin)
    (hchan : s.ch.chan = (n.side r).ch.chan) (hreader : s.reader = (n.side r).reader)
    (hret : s.returned = (n.side r).returned) :
    ReceiverOk n r (s.trySend dp rest).1 (s.trySend dp rest).2 := by
  rw [Side.trySend]
  by_cases hc : s.ch.canSend = true
  · rw [if_pos hc]
    refine ReceiverOk.writer hack hwin hchan hreader hret fun pkt hpkt => ?_
    simp only [Channel.sendPacket] at hpkt
    split_ifs at hpkt
    · exact ⟨_, _, _, _, List.mem_singleton.mp hpkt⟩
    · simp at hpkt
  · rw [if_neg hc]
    exact ReceiverOk.writer hack hwin hchan hreader hret (by simp)

/-- A blocked call ends with an exception. -/
theorem SenderOk.giveUp {dp : DataPacket} {rest : List UInt8} {w : Bool}
    (hb : (n.side r).writer = .blocked dp rest w) :
    SenderOk n r { n.side r with writer := .idle } [] := by
  intro lost hl
  obtain ⟨lost', ht, he⟩ := hl.tx.giveUp (c := (n.side r).ch) hb ⟨rfl, rfl⟩ (.refl _)
    (fun hc d hd => ⟨hd, hc⟩)
  exact ⟨lost', he, ht, by simp⟩

/-! ### The steps -/

theorem Inv.write {bytes : List UInt8} (h : Inv n) (hidle : (n.side r).writer = .idle)
    (hlen : bytes.length < 2 ^ 32) : Inv (n.put r ((n.side r).startWrite bytes) []) :=
  h.put
    (fun lost hl => ⟨lost, (hl.tx.startWrite hidle hlen).2, (hl.tx.startWrite hidle hlen).1, by simp⟩)
    (ReceiverOk.writer rfl rfl rfl rfl rfl (by simp))

theorem Inv.writeNext {rest : List UInt8} (h : Inv n) (hrun : (n.side r).writer = .running rest)
    (hnear : SendNear ((n.side r).ch.takePacket []).1) :
    Inv (n.put r ((n.side r).writeNext rest).1 ((n.side r).writeNext rest).2) := by
  -- `try_send` overwrites the writer, so the call may be seen as waiting already
  let s : Side := { n.side r with
    ch := ((n.side r).ch.takePacket (rest.take maxPayload)).1,
    chunks := (n.side r).chunks ++ [rest.take maxPayload],
    writer := .blocked ((n.side r).ch.takePacket (rest.take maxPayload)).2 (rest.drop maxPayload) false }
  have heq : (n.side r).writeNext rest =
      s.trySend ((n.side r).ch.takePacket (rest.take maxPayload)).2 (rest.drop maxPayload) := rfl
  rw [heq]
  exact h.put
    (SenderOk.trySend (fun lost hl => ⟨(hl.tx.take hrun).2, (hl.tx.take hrun).1⟩) rfl hnear)
    (ReceiverOk.trySend rfl rfl rfl rfl rfl)

theorem Inv.handle {o : Outcome} (h : Inv n) (htx : SenderOk n r ((n.side r).after o) o.sent)
    (hrx : ReceiverOk n r ((n.side r).after o) o.sent) : Inv (n.handle r o) := h.put htx hrx

theorem Inv.retransmit (h : Inv n) : Inv (n.handle r (n.side r).ch.retransmitStep) := by
  obtain ⟨hk, hf, hx⟩ := Channel.retransmitStep_frame (n.side r).ch
  refine h.handle (fun lost hl => ⟨lost, extends_after _ _ _, hl.tx.after hk (hl.tx.flow.same hf),
    fun pkt hpkt => ?_⟩) (ReceiverOk.handler hx fun pkt hpkt lost hl => ?_)
  · obtain ⟨hc, d, hd, rfl⟩ := Channel.retransmitStep_sent _ pkt hpkt
    rw [Side.top_after]
    exact hl.tx.held hc d hd
  · obtain ⟨_, d, _, rfl⟩ := Channel.retransmitStep_sent _ pkt hpkt
    trivial

theorem Inv.syn {now : UInt64} {expired : Bool} (h : Inv n) :
    Inv (n.handle r ((n.side r).ch.onSyn now expired)) := by
  cases expired with
  | true =>
    obtain ⟨hs, hchan, hwin, hack, hk, hf⟩ := Channel.onSyn_expired_frame now (n.side r).ch
    exact h.handle (.handler hk (fun lost hl => hl.tx.flow.same hf) (by simp [hs]))
      (.close hchan hwin hack (by simp [hs]))
  | false =>
    obtain ⟨hk, hf, hx⟩ := Channel.onSyn_alive_frame now (n.side r).ch
    refine h.handle (.handler hk (fun lost hl => hl.tx.flow.same hf) fun pkt hpkt => ?_)
      (.handler hx fun pkt hpkt lost hl => ?_)
    · rw [(Channel.onSyn_alive_sent now _ pkt hpkt).1]
      simp [Channel.ackDatagram]
    · obtain ⟨heq, hc⟩ := Channel.onSyn_alive_sent now _ pkt hpkt
      rw [heq]
      intro _
      obtain ⟨⟨seq, t, hack⟩, _, _⟩ := hx
      refine ⟨?_, Nat.le_refl _, rfl⟩
      have hw := (hl.rx_other.window hc).startSeq
      simp only [hack]
      exact hw

theorem Inv.close (h : Inv n) (sendClose : Bool) :
    Inv (n.handle r ((n.side r).ch.close sendClose)) := by
  obtain ⟨hchan, hwin, hack, hk, hf⟩ := Channel.close_frame sendClose (n.side r).ch
  have hs : ∀ pkt ∈ ((n.side r).ch.close sendClose).sent, pkt = .close := by
    intro pkt hpkt
    simp only [Channel.close] at hpkt
    split_ifs at hpkt
    · exact List.mem_singleton.mp hpkt
    · simp at hpkt
  refine h.handle (.handler hk (fun lost hl => hl.tx.flow.same hf) fun pkt hpkt => ?_)
    (.close hchan hwin hack hs)
  rw [hs pkt hpkt]
  simp

/-- The task flags at the end of an endpoint's record are not part of any invariant. -/
theorem Inv.withCloseTask {b : Bool} (h : Inv (n.put r s' sent)) :
    Inv (n.put r { s' with closeTask := b } sent) := by
  intro p
  obtain ⟨lost, hl⟩ := h p
  refine ⟨lost, ?_⟩
  cases p <;> cases r <;> exact ⟨
    ⟨hl.tx.1, hl.tx.2, hl.tx.3, hl.tx.4, hl.tx.5, hl.tx.6, hl.tx.7, hl.tx.8, hl.tx.9, hl.tx.10⟩,
    ⟨hl.rx.1, hl.rx.2, hl.rx.3, hl.rx.4, hl.rx.5, hl.rx.6, hl.rx.7, hl.rx.8, hl.rx.9, hl.rx.10,
      hl.rx.11, hl.rx.12⟩, hl.data, hl.acks⟩

theorem Inv.read (h : Inv n) (len : Nat) :
    Inv (n.put r ((n.side r).readMore len (n.side r).reader.got) []) := by
  refine h.put (fun lost hl => ⟨lost, ?_, ?_, by simp⟩) fun lost hl => ?_
  · rw [Side.readMore]
    simp only
    split_ifs <;> exact .of_eq rfl rfl rfl
  · have ht := hl.tx
    rw [Side.readMore]
    simp only
    split_ifs <;> exact ⟨ht.1, ht.2, ht.3, ht.4, ht.5, ht.6, ht.7, ht.8, ht.9, ht.10⟩
  · obtain ⟨h1, h2, h3⟩ := hl.rx_other.readMore len hl.tx
    exact ⟨h1, h3, h2, by simp⟩

/-- Genuine data from the other endpoint goes into the receive window; what it sends back reports that window. -/
theorem Inv.deliverData {w seq : SeqNum} {payload : List UInt8} {idx : Nat} (h : Inv n)
    (hc : (n.side r).ch.chan = true) (hmem : .data w seq payload idx ∈ n.flight r.other)
    (hyoung : (n.side r).ch.rxAckPack.rxWinEndIdx < idx + (2 ^ 15 - (n.side r).ch.rxAckPack.rxWinSize.toNat)) :
    Inv (n.handle r ((n.side r).ch.handleData { rxWinStart := w, seq := seq, data := payload, idx := idx })) := by
  set dp : DataPacket := { rxWinStart := w, seq := seq, data := payload, idx := idx } with hdp
  have hgen : ∀ lost, Lane n r.other lost → Genuine (n.side r.other).chunks (n.side r.other).top
      (n.side r).ch.rxAckPack.rxWinStartIdx (n.side r).ch.rxAckPack.rxWinSize.toNat lost
      dp.seq dp.data dp.idx := by
    intro lost hl
    have hdata := hl.data _ hmem
    rwa [Peer.other_other] at hdata
  have hfar : ∀ lost, Lane n r.other lost → (n.side r).ch.rxAckPack.rxWinEndIdx +
      (n.side r).ch.rxAckPack.rxWinSize.toNat < dp.idx + 2 ^ 15 := by
    intro lost hl
    have hsmall := hl.rx_other.small
    simp only [hdp]
    omega
  refine h.handle (.handler (Channel.handleData_keepsTx _ _)
    (fun lost hl => hl.tx.flow.same (Channel.handleData_sameFlow _ _)) fun pkt hpkt => ?_)
    fun lost hl => ?_
  · obtain ⟨lost, hl⟩ := h r.other
    obtain ⟨_, np, rfl⟩ := hl.rx_other.data_sent hc (hgen lost hl) (hfar lost hl) 0 pkt hpkt
    simp
  · have hrx := hl.rx_other.data hc (hgen lost hl) (hfar lost hl)
    obtain ⟨ack, win, hch, h1, h2, h3, _, _⟩ := Channel.storeData_frame dp
      (Channel.advanceTx dp.rxWinStart (Channel.startSynTimer (n.side r).ch))
    have heq : ((n.side r).ch.handleData dp).ch.rxAckPack = ack := by
      have hframe : ((n.side r).ch.handleData dp).ch = _ := hch
      rw [hframe]
    simp only [Channel.advanceTx_rxAckPack, Channel.startSynTimer_rxAckPack] at h2 h3
    refine ⟨hrx, ?_, ?_, fun pkt hpkt => ?_⟩
    · simp only [Side.after, heq, h3]
    · simp only [Side.after, heq, h2]
      exact Nat.le_refl _
    · simp only [Side.after, heq, h3]
      exact (hl.rx_other.data_sent hc (hgen lost hl) (hfar lost hl) _ pkt hpkt).1

/-- An ack of the other endpoint opens the window; an ack of an ack is kept, anything else is ignored. -/
theorem Inv.deliverAck {ap : AckPacket} (h : Inv n) (hmem : .ack ap ∈ n.flight r.other) :
    Inv (n.handle r ((n.side r).ch.onRecv (.ack ap))) := by
  have hack : ∀ lost, Lane n r lost → AckOk (n.side r.other).ch.rxAckPack.rxWinStartIdx
      (n.side r.other).ch.rxAckPack.rxWinSize (.ack ap) := fun lost hl => hl.acks _ hmem
  simp only [Channel.onRecv]
  split
  · rename_i hf
    obtain ⟨hk, hx, _⟩ := Channel.handleAck_frame ap (n.side r).ch
    refine h.handle (.handler hk (fun lost hl => hl.tx.flow.ack (hack lost hl) hf)
      fun pkt hpkt => ?_) (.handler hx fun pkt hpkt lost hl => ?_)
    · obtain ⟨ap2, rfl, _⟩ := Channel.handleAck_sent ap _ pkt hpkt
      simp
    · obtain ⟨ap2, rfl, hf2⟩ := Channel.handleAck_sent ap _ pkt hpkt
      intro hf1
      rw [hf2] at hf1
      exact absurd hf1 (by decide)
  · exact h.handle (.handler (.of_eq rfl rfl rfl rfl) (fun lost hl => hl.tx.flow.same ⟨rfl, rfl, rfl⟩)
      (by simp)) (.handler (.of_eq rfl rfl rfl) (by simp))
  · exact h.handle (.handler (.refl _) (fun lost hl => hl.tx.flow) (by simp))
      (.handler (.of_eq rfl rfl rfl) (by simp))

theorem Inv.deliverNack {np : NackPacket} (h : Inv n) (hmem : .nack np ∈ n.flight r.other) :
    Inv (n.handle r ((n.side r).ch.onRecv (.nack np))) := by
  have hnack : ∀ lost, Lane n r lost → (n.side r.other).ch.rxAckPack.rxWinSize.toNat ≠ 0 :=
    fun lost hl => hl.acks _ hmem
  obtain ⟨hk, hx, _⟩ := Channel.handleNack_frame np (n.side r).ch
  exact h.handle (.handler hk (fun lost hl => hl.tx.flow.nack (hnack lost hl)) (by simp [Channel.onRecv]))
    (.handler hx (by simp [Channel.onRecv]))

theorem Inv.deliverPacket {pkt : Packet} {i : Nat} (h : Inv n) (hc : (n.side r).ch.chan = true)
    (hi : (n.flight r.other)[i]? = some pkt) (hy : YoungData n (.deliver r i)) :
    Inv (n.handle r ((n.side r).ch.onRecv pkt)) := by
  have hmem : pkt ∈ n.flight r.other := List.mem_of_getElem? hi
  cases pkt with
  | data w seq payload idx => exact h.deliverData hc hmem (hy w seq payload idx hi)
  | ack ap => exact h.deliverAck hmem
  | nack np => exact h.deliverNack hmem
  | close =>
    exact h.handle (.handler (.refl _) (fun lost hl => hl.tx.flow) (by simp [Channel.onRecv]))
      (.handler (.of_eq rfl rfl rfl) (by simp [Channel.onRecv]))

theorem deliver_handle {pkt : Packet} {left : List Packet} (hc : (n.side r).ch.chan = true)
    (hp : pkt ≠ .close) : n.deliver r pkt left =
      { n.handle r ((n.side r).ch.onRecv pkt) with
        flight := Function.update (n.handle r ((n.side r).ch.onRecv pkt)).flight r.other left } := by
  cases pkt with
  | close => exact absurd rfl hp
  | data | ack | nack =>
    simp only [Net.deliver, hc, if_true]
    exact n.put_offWire r ..

theorem Inv.flights (h : Inv n) {flight : Peer → List Packet}
    (hf : ∀ q, ∀ pkt ∈ flight q, pkt ∈ n.flight q) : Inv { n with flight := flight } := by
  intro p
  obtain ⟨lost, hl⟩ := h p
  exact ⟨lost, hl.flights hf⟩

theorem mem_update_flight {q : Peer} {left : List Packet} (hl : ∀ pkt ∈ left, pkt ∈ n.flight r) :
    ∀ pkt ∈ Function.update n.flight r left q, pkt ∈ n.flight q := by
  intro pkt hpkt
  by_cases hq : q = r
  · subst hq
    rw [Function.update_self] at hpkt
    exact hl pkt hpkt
  · rwa [Function.update_of_ne hq] at hpkt

theorem Inv.deliver {pkt : Packet} {i : Nat} (h : Inv n)
    (hi : (n.flight r.other)[i]? = some pkt) (hy : YoungData n (.deliver r i)) :
    Inv (n.deliver r pkt ((n.flight r.other).eraseIdx i)) := by
  have hsub : ∀ q, ∀ pkt' ∈ Function.update n.flight r.other ((n.flight r.other).eraseIdx i) q,
      pkt' ∈ n.flight q := fun q => mem_update_flight fun _ => List.mem_of_mem_eraseIdx
  cases hc : (n.side r).ch.chan with
  | false =>
    simp only [Net.deliver, hc, Bool.false_eq_true, if_false]
    exact h.flights hsub
  | true =>
    by_cases hp : pkt = .close
    · subst hp
      simp only [Net.deliver, hc, if_true]
      exact ((h.flights hsub).put
        (fun lost hl => ⟨lost, .of_eq rfl rfl rfl, hl.tx, by simp⟩)
        (ReceiverOk.writer rfl rfl rfl rfl rfl (by simp))).withCloseTask
    · rw [deliver_handle hc hp]
      refine (h.deliverPacket hc hi hy).flights fun q => mem_update_flight fun pkt' hpkt' => ?_
      have : (n.handle r ((n.side r).ch.onRecv pkt)).flight r.other = n.flight r.other := by
        simp only [Net.handle, Net.put]
        rw [Function.update_of_ne r.other_ne]
      rw [this]
      exact List.mem_of_mem_eraseIdx hpkt'

/-- A write that throws or times out gives up the packet whose number it has taken. -/
theorem Inv.giveUp {p : Peer} {dp : DataPacket} {rest : List UInt8} {w : Bool} (h : Inv n)
    (hb : (n.side p).writer = .blocked dp rest w) : Inv (n.put p { n.side p with writer := .idle } []) :=
  h.put (SenderOk.giveUp hb) (ReceiverOk.writer rfl rfl rfl rfl rfl (by simp))

/-- A read that throws: the bytes copied so far are gone with the call, and the channel is closed. -/
theorem Inv.readThrow {p : Peer} {len : Nat} {got : List UInt8} {w : Bool} (h : Inv n)
    (hb : (n.side p).reader = .blocked len got w) (hc : (n.side p).ch.chan = false) :
    Inv (n.put p { n.side p with reader := .idle } []) := by
  refine h.put (fun lost hl => ⟨lost, .of_eq rfl rfl rfl, ?_, by simp⟩) fun lost hl => ?_
  · have ht := hl.tx
    exact ⟨ht.1, ht.2, ht.3, ht.4, ht.5, ht.6, ht.7, ht.8, ht.9, ht.10⟩
  · have hx := hl.rx_other
    refine ⟨⟨hx.1, hx.2, hx.3, hx.4, hx.5, hx.6, hx.7, ?_, hx.9, hx.10, hx.11, ?_⟩, rfl, Nat.le_refl _, by simp⟩
    · have hdelivered := hx.delivered
      rw [hb] at hdelivered
      exact (List.prefix_append _ _).trans (by simpa [Reader.got] using hdelivered)
    · simp only [hc]
      simp

/-- A copy of a datagram is one that was on the wire. -/
theorem mem_of_mem_dup {l : List Packet} {i : Nat} {pkt pkt' : Packet} (hi : l[i]? = some pkt)
    (h : pkt' ∈ l ++ [pkt]) : pkt' ∈ l := by
  rcases List.mem_append.mp h with h | h
  · exact h
  · rw [List.mem_singleton.mp h]
    exact List.mem_of_getElem? hi

/-- Every step whose data is young and whose sends are in range keeps the invariant. -/
theorem Inv.step {e : Event} (h : Inv n) (hy : YoungData n e) (hr : SendsInRange n e)
    (hs : n.step e = some n') : Inv n' := by
  cases Net.takes_of_step hs with
  | write _ hidle => exact h.write hidle hr
  | writeNext _ hrun => exact h.writeNext hrun hr
  | writeWake _ hb _ =>
    exact h.put (SenderOk.trySend (fun lost hl => ⟨.of_eq rfl rfl rfl, hl.tx⟩) hb hr)
      (ReceiverOk.trySend rfl rfl rfl rfl rfl)
  | writeThrow _ hb _ => exact h.giveUp hb
  | writeTimeout _ hb => exact h.giveUp hb
  | @read p len _ hidle =>
    have hread := h.read (r := p) (len % 2 ^ 32)
    rwa [hidle] at hread
  | @readWake p len got _ hb _ =>
    have hread := h.read (r := p) len
    rwa [hb] at hread
  | readThrow _ hb hc => exact h.readThrow hb hc
  | syn => exact h.syn
  | retransmit => exact h.retransmit
  | close => exact h.close true
  | @closeTask p =>
    have hclose := h.close (r := p) false
    simp only [Net.handle, Channel.close, Bool.false_and, Bool.false_eq_true, if_false] at hclose
    exact hclose.withCloseTask
  | deliver _ hi => exact h.deliver hi hy
  | drop => exact h.flights fun q => mem_update_flight fun _ => List.mem_of_mem_eraseIdx
  | dup hi => exact h.flights fun q => mem_update_flight fun _ => mem_of_mem_dup hi

theorem Inv.init {mwp : Peer → BitVec 16} (hm : ∀ p, (mwp p).toNat ≤ 4096) : Inv (Net.init mwp) := by
  intro p
  refine ⟨none, ⟨rfl, rfl, rfl, Nat.le_refl _, ?_, fun _ => ⟨rfl, .inl ⟨rfl, rfl⟩⟩, ?_, by simp [Net.init],
    fun _ => rfl, by simp [Net.init]⟩, ⟨Nat.le_refl _, Nat.le_refl _, Nat.le_refl _, hm _, fun _ => Nat.zero_le _, rfl,
    by simp [Net.init, Channel.init], List.prefix_rfl, by simp [Net.init, Channel.init], fun _ => ?_, ?_,
    fun _ => ⟨[], ?_, rfl⟩⟩, by simp [Net.init], by simp [Net.init]⟩
  · exact Nat.le_max_left 1 _
  · simp [Net.init, Channel.init]
  · exact ⟨rfl, rfl, hm _, Nat.le_refl _, Nat.zero_le _, List.Pairwise.nil, by simp [Net.init, Channel.init],
      fun h => absurd h (by simp [Net.init, Channel.init]),
      MissList.stores_nil fun x hx => by simp only [Net.init, Channel.init] at hx; omega⟩
  · simp [Net.init, Channel.init]
  · exact ⟨by simp [Net.init, Channel.init], by simp [Net.init, Channel.init],
      by simp [Net.init, Channel.init]⟩

/-- In every run with young data in which no packet is sent out of range, the bytes
returned by the reads of one endpoint are a prefix of the bytes given to the writes
of the other. -/
theorem returned_prefix_of_inRange (mwp : Peer → BitVec 16) (hm : ∀ p, (mwp p).toNat ≤ 4096)
    (es : List Event) (n : Net) (hrun : run Net.step (Net.init mwp) es = some n)
    (hg : Guarded Net.step (fun n e => YoungData n e ∧ SendsInRange n e) (Net.init mwp) es)
    (p : Peer) : (n.side p).returned <+: (n.side p.other).passed := by
  have hinv : Inv n :=
    invariant_of_guarded Inv (fun s e t h hok hs => h.step hok.1 hok.2 hs) (Inv.init hm) hg hrun
  obtain ⟨lost, hl⟩ := hinv p.other
  exact (List.prefix_append _ _).trans hl.rx_other.delivered

/-- Packet 2 is lost and packet 3 arrives twice before the nack has packet 2 sent again. -/
def repeatedThird : List Event :=
  [.write .a [1], .writeNext .a, .deliver .b 0, .read .b 1, .syn .b 0 false, .deliver .a 0, .deliver .b 0,
    .write .a [2], .writeNext .a, .write .a [3], .writeNext .a, .dup .b 1, .drop .b 0, .deliver .b 1, .deliver .b 0,
    .deliver .a 0, .retransmit .a, .deliver .b 0, .read .b 2]

theorem returned_prefix_lost : ∃ n, run Net.step (Net.init fun _ => 4096) repeatedThird = some n ∧
    (n.side .b).returned = [1, 2, 3] ∧ (n.side .b).returned <+: (n.side .a).passed := by
  have hread : (run Net.step (Net.init fun _ => 4096) repeatedThird).map
      (fun n => (n.side .b).returned) = some [1, 2, 3] := by decide +kernel
  obtain ⟨n, hrun, hb⟩ := Option.map_eq_some_iff.mp hread
  exact ⟨n, hrun, hb, returned_prefix_of_inRange _ (fun _ => by decide) _ n hrun (by decide +kernel) .b⟩

/-- The two ways out of range, each with young data only. 65537 one-byte writes without
an ack: a `write` that timed out keeps its sequence number, so the last one is sent as
packet 1 again and read first. A buffer of `2^32` bytes: its length is cut to 0. -/
theorem returned_not_prefix :
    (∃ es n, run Net.step (Net.init fun _ => 4096) es = some n ∧
      Guarded Net.step YoungData (Net.init fun _ => 4096) es ∧
      (∀ p bytes, Event.write p bytes ∈ es → bytes.length < 2 ^ 32) ∧
      ¬ (n.side .b).returned <+: (n.side .a).passed) ∧
    (∃ es n, run Net.step (Net.init fun _ => 4096) es = some n ∧
      Guarded Net.step YoungData (Net.init fun _ => 4096) es ∧
      es = [.write .a (List.replicate (2 ^ 32) 0), .write .a [1], .writeNext .a, .deliver .b 0, .read .b 1] ∧
      ¬ (n.side .b).returned <+: (n.side .a).passed) := by
  constructor
  · obtain ⟨es, n, hrun, hg, hl, hb, ha⟩ := run_overrun (k := 65536) (by decide)
    refine ⟨es, n, hrun, hg, hl, ?_⟩
    rw [hb, ha]
    exact not_prefix_of_head (by decide)
  · obtain ⟨n, hrun, hg, hb, ha⟩ := run_truncated (List.replicate (2 ^ 32) 0)
      (by rw [List.length_replicate, Nat.mod_self])
    refine ⟨_, n, hrun, hg, rfl, ?_⟩
    rw [hb, ha]
    exact not_prefix_of_head (by decide)

end Tornet.Udt
