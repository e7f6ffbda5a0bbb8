import Tornet.Udt.Forgetting

/-! What a receiver asks for: the numbers that an ack or a nack lists are those of packets that were sent, and they are not
before the window start that it reports. The sender keeps the packets that it has sent last, without a gap. -/
namespace Tornet.Udt
open Library

/-- The list is of packets from the window start on, of a stream that was sent up to `top`. -/
structure Asks (top : Nat) (l : MissList) (w : SeqNum) (start : Nat) : Prop where
  reported : w = seqOf start
  listed : ∀ seq, MissList.Listed l seq → ∃ x, seq = seqOf x ∧ start ≤ x ∧ x ≤ start + 4096 ∧ x ≤ top

def Packet.AsksFor (top : Nat) : Packet → Prop
  | .ack ap => ap.flags = .ack → Asks top ap.missedSeq ap.rxWinStart ap.rxWinStartIdx
  | .nack np => Asks top [(np.startSeq, np.endSeq)] np.rxWinStart np.rxWinStartIdx
  | .data .. | .close => True

/-- `tx_win` holds consecutive packets, up to the last one that was sent. -/
def Side.Rowed (s : Side) : Prop := ∃ start, Row start s.ch.txWin s.top

/-- Nothing is asked for that was not sent, and no packet is missing in the `tx_win` of an open channel. -/
structure Asking (n : Net) : Prop where
  asks : ∀ p, ∀ pkt ∈ n.flight p, pkt.AsksFor (n.side p.other).top
  rowed : ∀ p, (n.side p).ch.chan = true → (n.side p).Rowed

/-- What a step of endpoint `p` to `s'` must do for that. -/
structure Continues (n : Net) (p : Peer) (s' : Side) (sent : List Packet) : Prop where
  top : (n.side p).top ≤ s'.top
  rowed : s'.ch.chan = true → s'.Rowed
  asks : ∀ pkt ∈ sent, pkt.AsksFor (n.side p.other).top

/-- No `write` runs into its timeout, so that every number that is taken is sent. -/
def NoTimeout : Event → Prop
  | .writeTimeout _ => False
  | _ => True

instance : (e : Event) → Decidable (NoTimeout e)
  | .writeTimeout _ => isFalse id
  | .write .. | .writeNext _ | .writeWake _ | .read .. | .readWake _ | .syn .. | .retransmit _ | .close _
  | .closeTask _ | .deliver .. | .drop .. | .dup .. => isTrue trivial

variable {n n' : Net} {e : Event} {p : Peer} {s' : Side} {sent : List Packet} {top top' : Nat}

theorem Packet.AsksFor.mono {pkt : Packet} (h : pkt.AsksFor top) (hle : top ≤ top') : pkt.AsksFor top' := by
  have widen {l : MissList} {w : SeqNum} {start : Nat} (ha : Asks top l w start) : Asks top' l w start := by
    refine ⟨ha.reported, fun seq hl => ?_⟩
    obtain ⟨x, hx, hlo, hhi, hsent⟩ := ha.listed seq hl
    exact ⟨x, hx, hlo, hhi, hsent.trans hle⟩
  cases pkt with
  | ack ap => exact fun hf => widen (h hf)
  | nack np => exact widen h
  | data | close => trivial

theorem Asking.put (h : Asking n) (hs : Continues n p s' sent) : Asking (n.put p s' sent) where
  asks q := by
    intro pkt hpkt
    by_cases hq : q = p
    · subst hq
      rw [Net.put_flight] at hpkt
      rw [Net.put_side_other]
      rcases List.mem_append.mp hpkt with hpkt | hpkt
      · exact h.asks q pkt hpkt
      · exact hs.asks pkt hpkt
    · obtain rfl : q = p.other := by cases p <;> cases q <;> first | rfl | exact absurd rfl hq
      rw [Net.put_flight_other] at hpkt
      have hask := h.asks _ pkt hpkt
      rw [Peer.other_other] at hask ⊢
      rw [Net.put_side]
      exact hask.mono hs.top
  rowed q := Net.put_at (P := fun s => s.ch.chan = true → s.Rowed) (h.rowed q) (fun _ => hs.rowed) sent

theorem Asking.flights (h : Asking n) {flight : Peer → List Packet}
    (hf : ∀ q, ∀ pkt ∈ flight q, pkt ∈ n.flight q) : Asking { n with flight := flight } :=
  ⟨fun q pkt hpkt => h.asks q pkt (hf q pkt hpkt), h.rowed⟩

/-! ### What is sent -/

/-- A nack asks for the gap in front of the packet that has arrived. -/
theorem storeData_asks {dp : DataPacket} {c : Channel} (h : Channel.Placed dp c) (hsent : dp.idx ≤ top) :
    ∀ pkt ∈ (Channel.storeData dp c).sent, pkt.AsksFor top := by
  rw [Channel.storeData]
  simp only
  split_ifs with hnext hfar hgap
  all_goals try exact fun pkt hpkt => absurd hpkt List.not_mem_nil
  intro pkt hpkt
  obtain rfl := List.mem_singleton.mp hpkt
  have hlt := h.gt_next_iff.mp hgap
  have hstart := h.window.startLe
  have hsmall := h.window.small
  have hahead := h.ahead
  obtain ⟨k, hk⟩ : ∃ k, dp.idx = k + 1 := ⟨dp.idx - 1, by omega⟩
  refine ⟨h.window.startSeq, fun seq hl => ?_⟩
  obtain ⟨r, hr, j, hj, rfl⟩ := MissList.listed_iff_offset.mp hl
  obtain rfl := List.mem_singleton.mp hr
  have hfirst : c.rxAckPack.rxWinEnd + 1 = seqOf (c.rxAckPack.rxWinEndIdx + 1) := by
    rw [h.window.endSeq, SeqNum.seqOf_succ]
  have hlast : dp.seq - 1 = seqOf k := by rw [h.seq, hk, SeqNum.seqOf_pred]
  simp only [hfirst, hlast] at hj ⊢
  rw [SeqNum.toNat_sub_seqOf (by omega) (by omega)] at hj
  exact ⟨c.rxAckPack.rxWinEndIdx + 1 + j, (SeqNum.seqOf_add _ _).symm, by omega, by omega, by omega⟩

/-- An ack asks for what the receive window lacks. -/
theorem ackDatagram_asks {ack : AckPacket} {win : List DataPacket} (h : RxWindow ack win) (hsent : ack.rxWinEndIdx ≤ top)
    (seq : SeqNum) (now : UInt64) :
    (Channel.ackDatagram { ack with ackSeq := seq, utcTime := now }).AsksFor top := by
  intro _
  refine ⟨h.startSeq, fun seq hl => ?_⟩
  have hspan := h.span
  have hsmall := h.small
  have hnear : ∀ x, (ack.rxWinStartIdx ≤ x ∧ x ≤ ack.rxWinEndIdx ∧ ∀ d ∈ win, d.idx ≠ x) →
      ack.rxWinStartIdx ≤ x ∧ x < ack.rxWinStartIdx + 2 ^ 16 := fun x hx => by omega
  obtain ⟨x, ⟨hlo, hhi, -⟩, hx⟩ := (h.missed.listed_iff _ hnear).mp (MissList.listed_wire hl)
  exact ⟨x, hx.symm, hlo, by simp only; omega, hhi.trans hsent⟩

/-! ### The steps -/

/-- The channel keeps what it has sent, and the writer is where it was. -/
theorem Asking.same (h : Asking n) (htop : s'.top = (n.side p).top)
    (hchan : s'.ch.chan = true → (n.side p).ch.chan = true) (hwin : s'.ch.txWin = (n.side p).ch.txWin) :
    Continues n p s' [] := by
  refine ⟨htop.ge, fun hc => ?_, fun pkt hpkt => absurd hpkt List.not_mem_nil⟩
  obtain ⟨start, hrow⟩ := h.rowed p (hchan hc)
  exact ⟨start, by rw [hwin, htop]; exact hrow⟩

/-- The next packet is sent, or has to wait. -/
theorem Continues.trySend {s : Side} {dp : DataPacket} {rest : List UInt8}
    (hrow : s.ch.chan = true → ∃ start, Row start s.ch.txWin (n.side p).top) (hlen : s.chunks.length = (n.side p).top + 1)
    (hidx : dp.idx = (n.side p).top + 1) (hseq : dp.seq = seqOf dp.idx) :
    Continues n p (s.trySend dp rest).1 (s.trySend dp rest).2 := by
  rw [hidx] at hseq
  rw [Side.trySend]
  by_cases hsend : s.ch.canSend = true
  · rw [if_pos hsend]
    cases hc : s.ch.chan with
    | true =>
      have htop : ({ s with ch := (s.ch.sendPacket dp).1, writer := Writer.next rest } : Side).top =
          (n.side p).top + 1 := (top_next rfl).trans hlen
      refine ⟨by rw [if_pos rfl, htop]; exact Nat.le_succ _, fun _ => ?_, fun pkt hpkt => ?_⟩
      · obtain ⟨start, hrow⟩ := hrow hc
        refine ⟨start, ?_⟩
        rw [if_pos rfl, htop]
        exact hrow.append hidx hseq
      · simp only [Channel.sendPacket, hc, if_true] at hpkt
        obtain rfl := List.mem_singleton.mp hpkt
        trivial
    | false =>
      refine ⟨?_, fun h => ?_, fun pkt hpkt => ?_⟩
      · rw [if_neg Bool.false_ne_true]
        exact Nat.le_of_succ_le (Nat.le_of_eq hlen.symm)
      · exact absurd (hc.symm.trans h) Bool.false_ne_true
      · simp [Channel.sendPacket, hc] at hpkt
  · rw [if_neg hsend]
    have htop : ({ s with writer := .blocked dp rest false } : Side).top = (n.side p).top := by
      rw [Side.top]
      simp only
      omega
    refine ⟨htop.ge, fun hc => ?_, fun pkt hpkt => absurd hpkt List.not_mem_nil⟩
    obtain ⟨start, hrow⟩ := hrow hc
    exact ⟨start, by rw [htop]; exact hrow⟩

theorem Continues.writeNext {rest : List UInt8} (h : Asking n) (hf : FlowInv n)
    (hrun : (n.side p).writer = .running rest) :
    Continues n p ((n.side p).writeNext rest).1 ((n.side p).writeNext rest).2 := by
  obtain ⟨f, hinv⟩ := hf
  obtain ⟨lost, hl⟩ := hinv p
  have hlen := hl.tx.nextLen
  have hnext := hl.tx.nextSeq
  simp only [Net.withPassed_side, Side.withPassed_ch, Side.withPassed_chunks] at hlen hnext
  have htop : (n.side p).top = (n.side p).chunks.length := by
    rw [Side.top, hrun]
  apply Continues.trySend
  · exact h.rowed p
  · rw [List.length_append, htop]
    rfl
  · rw [htop, hlen]
    rfl
  · simp only [Channel.takePacket, hnext]
    exact (SeqNum.seqOf_succ _).symm

theorem Continues.writeWake {dp : DataPacket} {rest : List UInt8} {w : Bool} (h : Asking n) (hf : FlowInv n)
    (hblocked : (n.side p).writer = .blocked dp rest w) :
    Continues n p ((n.side p).trySend dp rest).1 ((n.side p).trySend dp rest).2 := by
  obtain ⟨f, hinv⟩ := hf
  obtain ⟨lost, hl⟩ := hinv p
  have hlen := hl.tx.nextLen
  obtain ⟨hidx, hseq, -, hpos⟩ := hl.tx.blocked dp rest w hblocked
  simp only [Net.withPassed_side, Side.withPassed_ch, Side.withPassed_chunks] at hlen hidx
  have htop : (n.side p).top = (n.side p).chunks.length - 1 := by
    rw [Side.top, hblocked]
  exact .trySend (h.rowed p) (by omega) (by omega) hseq

theorem Continues.readMore (h : Asking n) (len : Nat) (got : List UInt8) :
    Continues n p ((n.side p).readMore len got) [] := by
  obtain ⟨htop, hchan⟩ := readMore_rest (n.side p) len got
  refine h.same htop (fun hc => hchan ▸ hc) ?_
  rw [Side.readMore]
  simp only
  split_ifs <;> rfl

/-- A handler that closes the channel, or leaves a row of packets. -/
theorem Continues.handler {o : Outcome} (hrow : o.ch.chan = true → ∃ start, Row start o.ch.txWin (n.side p).top)
    (hsent : ∀ pkt ∈ o.sent, pkt.AsksFor (n.side p.other).top) : Continues n p ((n.side p).after o) o.sent := by
  refine ⟨(Side.top_after _ o).ge, fun hc => ?_, hsent⟩
  obtain ⟨start, hrow⟩ := hrow hc
  exact ⟨start, by rw [Side.top_after]; exact hrow⟩

theorem Continues.syn (h : Asking n) (hf : FlowInv n) (now : UInt64) (expired : Bool) :
    Continues n p ((n.side p).after ((n.side p).ch.onSyn now expired)) ((n.side p).ch.onSyn now expired).sent := by
  cases expired with
  | true =>
    obtain ⟨hsent, hchan, -⟩ := Channel.onSyn_expired_frame now (n.side p).ch
    refine .handler (fun hc => ?_) (by simp [hsent])
    rw [hchan] at hc
    cases hc
  | false =>
    obtain ⟨-, -, ⟨seq, t, hack⟩, -, hchan⟩ := Channel.onSyn_alive_frame now (n.side p).ch
    have hwin : ((n.side p).ch.onSyn now false).ch.txWin = (n.side p).ch.txWin := by
      unfold Channel.onSyn Channel.sendAck
      simp only [Bool.false_eq_true, if_false]
      split_ifs <;> rfl
    refine .handler (fun hc => ?_) fun pkt hpkt => ?_
    · obtain ⟨start, hrow⟩ := h.rowed p (hchan ▸ hc)
      exact ⟨start, by rw [hwin]; exact hrow⟩
    · obtain ⟨rfl, hopen⟩ := Channel.onSyn_alive_sent now _ _ hpkt
      obtain ⟨f, hinv⟩ := hf
      obtain ⟨lost, hl⟩ := hinv p.other
      rw [hack]
      exact ackDatagram_asks (hl.rx_other.window hopen) hl.rx_other.endLe seq t

theorem Continues.retransmit (h : Asking n) :
    Continues n p ((n.side p).after (n.side p).ch.retransmitStep) (n.side p).ch.retransmitStep.sent := by
  have hwin : (n.side p).ch.retransmitStep.ch.txWin = (n.side p).ch.txWin ∨
      ∃ i a, (n.side p).ch.retransmitStep.ch.txWin =
        (n.side p).ch.txWin.modify i fun d => { d with lastSentAckSeq := a } := by
    rw [Channel.retransmitStep]
    simp only
    split
    · exact .inl rfl
    split
    · exact .inl rfl
    split_ifs
    · exact .inr ⟨_, _, rfl⟩
    · exact .inr ⟨_, _, rfl⟩
    · exact .inl rfl
  refine .handler (fun hc => ?_) fun pkt hpkt => ?_
  · obtain ⟨start, hrow⟩ := h.rowed p ((Channel.retransmitStep_frame _).1.chan hc)
    obtain hwin | ⟨i, a, hwin⟩ := hwin
    · exact ⟨start, by rw [hwin]; exact hrow⟩
    · exact ⟨start, by rw [hwin]; exact hrow.modify i a⟩
  · obtain ⟨-, d, -, rfl⟩ := Channel.retransmitStep_sent _ _ hpkt
    trivial

theorem Continues.close (sendClose task : Bool) : Continues n p
    { (n.side p).after ((n.side p).ch.close sendClose) with closeTask := task }
    ((n.side p).ch.close sendClose).sent := by
  refine ⟨(Side.top_after _ _).ge, nofun, fun pkt hpkt => ?_⟩
  simp only [Channel.close] at hpkt
  split_ifs at hpkt
  · obtain rfl := List.mem_singleton.mp hpkt
    trivial
  · cases hpkt

/-- A datagram may take packets from the front of the row, and only a data packet is answered with a nack. -/
theorem Continues.deliver {pkt : Packet} {i : Nat} (h : Asking n) (hf : FlowInv n) (hy : YoungData n (.deliver p i))
    (hopen : (n.side p).ch.chan = true) (hi : (n.flight p.other)[i]? = some pkt) :
    Continues n p ((n.side p).after ((n.side p).ch.onRecv pkt)) ((n.side p).ch.onRecv pkt).sent := by
  refine .handler (fun _ => ?_) ?_
  · obtain ⟨start, hrow⟩ := h.rowed p hopen
    rw [Channel.onRecv_txWin]
    cases pkt.reported with
    | none => exact ⟨start, hrow⟩
    | some w =>
      rw [← List.takeWhile_append_dropWhile (p := fun d => SeqNum.lt d.seq w) (l := (n.side p).ch.txWin)] at hrow
      exact hrow.suffix
  · cases pkt with
    | data w seq payload idx =>
      obtain ⟨f, hinv⟩ := hf
      obtain ⟨lost, hl⟩ := hinv p.other
      have hgen := hl.data _ (List.mem_of_getElem? hi)
      rw [Peer.other_other] at hgen
      have hyoung := hy w seq payload idx hi
      have hsmall := hl.rx_other.small
      simp only [Net.withPassed_side, Side.withPassed_ch] at hsmall
      refine storeData_asks (hl.rx_other.placed hopen hgen ?_) hgen.le
      simp only [Net.withPassed_side, Side.withPassed_ch]
      omega
    | ack ap =>
      intro pkt hpkt
      simp only [Channel.onRecv] at hpkt
      split at hpkt
      · obtain ⟨ap2, rfl, hf2⟩ := Channel.handleAck_sent ap _ pkt hpkt
        exact fun hf => absurd (hf2.symm.trans hf) (by decide)
      · cases hpkt
      · cases hpkt
    | nack np => exact fun pkt hpkt => absurd hpkt List.not_mem_nil
    | close => exact fun pkt hpkt => absurd hpkt List.not_mem_nil

theorem Asking.deliver {pkt : Packet} {i : Nat} (h : Asking n) (hf : FlowInv n) (hy : YoungData n (.deliver p i))
    (hi : (n.flight p.other)[i]? = some pkt) : Asking (n.deliver p pkt ((n.flight p.other).eraseIdx i)) := by
  have hsub : ∀ q, ∀ pkt' ∈ Function.update n.flight p.other ((n.flight p.other).eraseIdx i) q,
      pkt' ∈ n.flight q := fun q => mem_update_flight fun _ => List.mem_of_mem_eraseIdx
  cases hc : (n.side p).ch.chan with
  | false =>
    simp only [Net.deliver, hc, Bool.false_eq_true, if_false]
    exact h.flights hsub
  | true =>
    by_cases hp : pkt = .close
    · subst hp
      simp only [Net.deliver, hc, if_true]
      have hleft := h.flights hsub
      exact hleft.put (hleft.same rfl id rfl)
    · rw [deliver_handle hc hp]
      refine (h.put (.deliver h hf hy hc hi)).flights fun q => mem_update_flight fun pkt' hpkt' => ?_
      rw [Net.handle, Net.put_flight_other]
      exact List.mem_of_mem_eraseIdx hpkt'

theorem Asking.step (h : Asking n) (hf : FlowInv n) (hy : YoungData n e) (ht : NoTimeout e)
    (hs : n.step e = some n') : Asking n' := by
  cases Net.takes_of_step hs with
  | write _ hidle =>
    refine h.put (h.same ?_ id rfl)
    rw [top_next rfl, Side.top, hidle]
    rfl
  | writeNext _ hrun => exact h.put (.writeNext h hf hrun)
  | writeWake _ hblocked => exact h.put (.writeWake h hf hblocked)
  | @writeThrow p _ _ _ _ hfreed =>
    refine h.put ⟨?_, fun hc => absurd (hfreed.symm.trans hc) Bool.false_ne_true, fun _ hpkt => absurd hpkt List.not_mem_nil⟩
    exact (n.side p).top_le
  | writeTimeout => exact ht.elim
  | read => exact h.put (.readMore h _ _)
  | readWake => exact h.put (.readMore h _ _)
  | readThrow => exact h.put (h.same rfl id rfl)
  | @syn _ now expired => exact h.put (.syn h hf now expired)
  | retransmit => exact h.put (.retransmit h)
  | @close p => exact h.put (.close true (n.side p).closeTask)
  | @closeTask p =>
    have hput := h.put (p := p) (.close false false)
    exact hput
  | deliver _ hi => exact h.deliver hf hy hi
  | drop => exact h.flights fun q => mem_update_flight fun _ => List.mem_of_mem_eraseIdx
  | dup hi => exact h.flights fun q => mem_update_flight fun _ => mem_of_mem_dup hi

theorem Asking.init (mwp : Peer → BitVec 16) : Asking (Net.init mwp) :=
  ⟨fun _ _ hpkt => absurd hpkt List.not_mem_nil, fun _ _ => ⟨1, rfl⟩⟩

end Tornet.Udt
