import Tornet.Udt.Frames
import Tornet.Udt.Lane

/-! Preservation of the direction invariant, one lemma for each thing an endpoint can
do in its role as sender and in its role as receiver. -/
namespace Tornet.Udt
open Library

variable {s s' t t' : Side} {chunks more : List (List UInt8)} {start start' size top top' : Nat}
  {lost lost' : Option Nat} {passed : List UInt8} {n : Net} {p : Peer} {sent : List Packet}

/-! ### Putting a changed endpoint back -/

/-- How the sending half of an endpoint may change the stream it stands for. -/
structure Extends (s s' : Side) (lost lost' : Option Nat) : Prop where
  chunks : ∃ more, s'.chunks = s.chunks ++ more
  top : s.top ≤ s'.top
  passed : s.passed <+: s'.passed
  lost : lost' = lost ∨ (lost = none ∧ ∃ m, lost' = some m ∧ s.top < m)

theorem Extends.of_eq (hc : s'.chunks = s.chunks) (ht : s'.top = s.top) (hp : s'.passed = s.passed) :
    Extends s s' lost lost :=
  ⟨⟨[], by simp [hc]⟩, ht.ge, by simp [hp], .inl rfl⟩

theorem Extends.trans {s₁ s₂ s₃ : Side} {lost lost' : Option Nat} (h : Extends s₁ s₂ lost lost)
    (h' : Extends s₂ s₃ lost lost') : Extends s₁ s₃ lost lost' := by
  obtain ⟨more, hmore⟩ := h.chunks
  obtain ⟨more', hmore'⟩ := h'.chunks
  refine ⟨⟨more ++ more', by rw [hmore', hmore, List.append_assoc]⟩, h.top.trans h'.top, h.passed.trans h'.passed, ?_⟩
  rcases h'.lost with heq | ⟨hnone, m, hm, hlt⟩
  · exact .inl heq
  · exact .inr ⟨hnone, m, hm, h.top.trans_lt hlt⟩

private theorem content_eq (htop : top ≤ chunks.length) {i : Nat} (h1 : 1 ≤ i) (h2 : i ≤ top) :
    chunkAt (chunks ++ more) i = chunkAt chunks i :=
  chunkAt_append h1 (h2.trans htop)

private theorem streamBefore_eq (htop : top ≤ chunks.length) {k : Nat} (hk : k ≤ top + 1) :
    streamBefore (chunkAt (chunks ++ more)) k = streamBefore (chunkAt chunks) k := by
  rw [streamBefore]
  apply List.flatMap_congr
  intro i hi
  rw [List.mem_range'_1] at hi
  exact content_eq htop (by omega) (by omega)

/-- The receiver's half survives whatever its sender adds to the stream. -/
theorem RxOk.extend (h : RxOk t s.chunks s.top lost s.passed) (he : Extends s s' lost lost') :
    RxOk t s'.chunks s'.top lost' s'.passed := by
  obtain ⟨⟨more, hmore⟩, htop, hpassed, hlost⟩ := he
  have hlen := s.top_le
  have hend := h.endLe
  have hle := h.startLe
  rw [hmore]
  refine { h with
    endLe := hend.trans htop, lostLe := ?_, delivered := h.delivered.trans hpassed, held := ?_,
    stream := ?_ }
  · intro m hm
    rcases hlost with rfl | ⟨_, m', rfl, hm'⟩
    · exact h.lostLe m hm
    · obtain rfl : m' = m := Option.some.inj hm
      omega
  · intro d hd
    obtain ⟨hd1, hd2⟩ := h.held d hd
    refine ⟨hd1.trans htop, ?_⟩
    rcases hlost with rfl | ⟨_, m, rfl, hm⟩
    · exact hd2
    · simp only [ne_eq, Option.some.injEq]
      omega
  · intro hc
    obtain ⟨pre, hd, hs⟩ := h.stream hc
    refine ⟨pre, ⟨fun d hdm hde => ?_, fun d hdm hde => ?_, hd.begun⟩, ?_⟩
    · have hdt := (h.held d hdm).1
      rw [content_eq hlen h.pos (by omega)]
      exact hd.first d hdm hde
    · have hdt := (h.held d hdm).1
      have hd1 := ((h.window hc).held d hdm).2.1
      have := h.pos
      rw [content_eq hlen (by omega) hdt]
      exact hd.rest d hdm hde
    · rw [hs, streamBefore_eq hlen (by omega)]

/-- The sending half of another endpoint survives a receive window that moves on. -/
theorem TxOk.advance (h : TxOk s start size lost) (hs : start ≤ start') : TxOk s start' size lost := by
  refine { h with ackLe := h.ackLe.trans hs, held := fun hc d hd => ?_ }
  have := (h.held hc d hd).mono [] s.top_le (Nat.le_refl _) hs (.inl rfl)
  simpa using this

/-- The sender of a direction acts. -/
theorem Lane.putSender (h : Lane n p lost) (he : Extends (n.side p) s' lost lost')
    (htx : TxOk s' (n.side p.other).ch.rxAckPack.rxWinStartIdx
      (n.side p.other).ch.rxAckPack.rxWinSize.toNat lost')
    (hsent : ∀ pkt ∈ sent, DataOk s'.chunks s'.top (n.side p.other).ch.rxAckPack.rxWinStartIdx
      (n.side p.other).ch.rxAckPack.rxWinSize.toNat lost' pkt) :
    Lane (n.put p s' sent) p lost' := by
  have hne := p.other_ne
  refine ⟨?_, ?_, ?_, ?_⟩ <;> simp only [Net.put, Function.update_self, Function.update_of_ne hne]
  · exact htx
  · exact h.rx.extend he
  · intro pkt hpkt
    rcases List.mem_append.mp hpkt with hpkt | hpkt
    · have hd := h.data pkt hpkt
      cases pkt with
      | data w seq payload idx =>
        obtain ⟨⟨more, hmore⟩, htop, _, hlost⟩ := he
        rw [hmore]
        exact Genuine.mono hd _ (n.side p).top_le htop (Nat.le_refl _)
          (hlost.imp_right fun hl => hl.2)
      | _ => trivial
    · exact hsent pkt hpkt
  · exact h.acks

/-- The receiver of a direction acts. -/
theorem Lane.putReceiver (h : Lane n p lost) (sent : List Packet)
    (hrx : RxOk t' (n.side p).chunks (n.side p).top lost (n.side p).passed)
    (hsize : t'.ch.rxAckPack.rxWinSize = (n.side p.other).ch.rxAckPack.rxWinSize)
    (hstart : (n.side p.other).ch.rxAckPack.rxWinStartIdx ≤ t'.ch.rxAckPack.rxWinStartIdx)
    (hsent : ∀ pkt ∈ sent, AckOk t'.ch.rxAckPack.rxWinStartIdx t'.ch.rxAckPack.rxWinSize pkt) :
    Lane (n.put p.other t' sent) p lost := by
  have hne := p.other_ne.symm
  refine ⟨?_, ?_, ?_, ?_⟩ <;> simp only [Net.put, Function.update_self, Function.update_of_ne hne]
  · rw [hsize]
    exact h.tx.advance hstart
  · exact hrx
  · intro pkt hpkt
    have hd := h.data pkt hpkt
    rw [hsize]
    cases pkt with
    | data w seq payload idx =>
      have := Genuine.mono hd [] (n.side p).top_le (Nat.le_refl _) hstart (.inl rfl)
      simpa [DataOk] using this
    | _ => trivial
  · intro pkt hpkt
    rcases List.mem_append.mp hpkt with hpkt | hpkt
    · have ha := h.acks pkt hpkt
      cases pkt with
      | ack ap =>
        intro hf
        obtain ⟨h1, h2, h3⟩ := ha hf
        exact ⟨h1, h2.trans hstart, h3.trans hsize.symm⟩
      | nack np =>
        simp only [AckOk, hsize] at ha ⊢
        exact ha
      | _ => trivial
    · exact hsent pkt hpkt

/-- Losing, duplicating and reordering add no datagram that was not there. -/
theorem Lane.flights (h : Lane n p lost) {flight : Peer → List Packet}
    (hf : ∀ q, ∀ pkt ∈ flight q, pkt ∈ n.flight q) : Lane { n with flight := flight } p lost :=
  ⟨h.tx, h.rx, fun pkt hpkt => h.data pkt (hf _ pkt hpkt), fun pkt hpkt => h.acks pkt (hf _ pkt hpkt)⟩

/-! ### The sender's role -/

/-- The flow-control part of the sending half. -/
structure FlowOk (c : Channel) (start size : Nat) : Prop where
  ackSeq : c.lastRxAck.rxWinStart = seqOf c.lastRxAck.rxWinStartIdx
  ackLe : c.lastRxAck.rxWinStartIdx ≤ start
  win : c.txWinSize.toNat ≤ max 1 size
  zero : size = 0 → c.startUp = true ∧
    ((c.lastRxAck.rxWinStartIdx = 1 ∧ c.txWinSize.toNat = 1) ∨ c.txWinSize.toNat = 0)

theorem TxOk.flow (h : TxOk s start size lost) : FlowOk s.ch start size :=
  ⟨h.ackSeq, h.ackLe, h.win, h.zero⟩

theorem FlowOk.same {c c' : Channel} (h : FlowOk c start size) (hs : Channel.SameFlow c c') :
    FlowOk c' start size := by
  obtain ⟨h1, h2, h3⟩ := hs
  exact ⟨by rw [h1]; exact h.ackSeq, by rw [h1]; exact h.ackLe, by rw [h2]; exact h.win,
    by rw [h1, h2, h3]; exact h.zero⟩

/-- A handler that keeps the numbering keeps the sending half. -/
theorem TxOk.after {o : Outcome} (h : TxOk s start size lost) (hk : Channel.KeepsTx s.ch o.ch)
    (hf : FlowOk o.ch start size) : TxOk (s.after o) start size lost where
  nextSeq := by
    simp only [Side.after, hk.nextTxSeq, hk.nextTxIdx]
    exact h.nextSeq
  nextLen := by
    simp only [Side.after, hk.nextTxIdx]
    exact h.nextLen
  ackSeq := hf.ackSeq
  ackLe := hf.ackLe
  win := hf.win
  zero := hf.zero
  held := by
    intro hc d hd
    obtain ⟨e, he, h1, h2, h3⟩ := hk.txWin d hd
    have := h.held (hk.chan hc) e he
    rw [s.top_after, ← h1, ← h2, ← h3]
    exact this
  blocked := by
    intro dp rest w hw
    simp only [Side.after, hk.nextTxIdx]
    cases hs : s.writer with
    | idle => cases hb : o.txWinAvail <;> simp [Side.after, hs, hb, Writer.wake] at hw
    | running r => cases hb : o.txWinAvail <;> simp [Side.after, hs, hb, Writer.wake] at hw
    | blocked dp' rest' w' =>
      have hdp : dp' = dp := by
        cases hb : o.txWinAvail <;> simp [Side.after, hs, hb, Writer.wake] at hw
        · exact hw.1
        · exact hw.1
      subst hdp
      exact h.blocked dp' rest' w' hs
  intact := by
    intro hl
    simp only [Side.after, Writer.rest_wake]
    exact h.intact hl
  broken := by
    intro m hm
    rw [s.top_after]
    exact h.broken m hm

/-- A handler changes neither the stream nor what was lost of it. -/
theorem extends_after (s : Side) (o : Outcome) (lost : Option Nat) :
    Extends s (s.after o) lost lost :=
  .of_eq rfl (s.top_after o) rfl

/-- Growing the window stays within what the peer advertised. -/
theorem grownWindow_le (su : Bool) (tx remote : BitVec 16) :
    (Channel.grownWindow su tx remote).toNat ≤ max tx.toNat remote.toNat := by
  rw [Channel.grownWindow]
  simp only
  split_ifs with h1 h2 h3
  · omega
  · simp only [BitVec.lt_def] at h2
    omega
  · rw [BitVec.lt_def] at h3
    have := remote.isLt
    have h1 : (1 : BitVec 16).toNat = 1 := rfl
    rw [BitVec.toNat_add, h1]
    omega
  · omega

theorem shrunkWindow_le (su : Bool) (tx : BitVec 16) :
    (Channel.shrunkWindow su tx).toNat ≤ max 1 tx.toNat := by
  have := tx.isLt
  unfold Channel.shrunkWindow
  simp only
  have h1 : (1 : BitVec 16).toNat = 1 := rfl
  split_ifs
  · omega
  · rw [BitVec.toNat_ofNat]
    exact (Nat.mod_le _ _).trans (by omega)
  · omega
  · rw [BitVec.toNat_ofNat]
    exact (Nat.mod_le _ _).trans (by omega)

/-- An advertised window of zero closes the sender's window. -/
private theorem grownWindow_zero (tx : BitVec 16) {remote : BitVec 16} (hr : remote.toNat = 0) :
    (Channel.grownWindow true tx remote).toNat = 0 := by
  rw [Channel.grownWindow]
  simp only [if_true]
  split_ifs with h
  · exact hr
  · simp only [BitVec.lt_def, BitVec.toNat_ofNat] at h ⊢
    omega

theorem FlowOk.ack {c : Channel} {ap : AckPacket} {size : BitVec 16}
    (h : FlowOk c start size.toNat) (ha : AckOk start size (.ack ap)) (hflags : ap.flags = .ack) :
    FlowOk (c.handleAck ap).ch start size.toNat := by
  obtain ⟨_, _, hlast, hwin, hsu⟩ := Channel.handleAck_frame ap c
  obtain ⟨h1, h2, h3⟩ := ha hflags
  have hgrown := grownWindow_le c.startUp c.txWinSize ap.rxWinSize
  have hw := h.win
  refine ⟨?_, ?_, ?_, fun hz => ⟨?_, .inr ?_⟩⟩
  · rcases hlast with hl | hl <;> rw [hl]
    · exact h1
    · exact h.ackSeq
  · rcases hlast with hl | hl <;> rw [hl]
    · exact h2
    · exact h.ackLe
  · rw [hwin]
    rw [h3] at hgrown
    rw [h3]
    omega
  · rw [hsu]
    exact (h.zero hz).1
  · rw [hwin, (h.zero hz).1]
    exact grownWindow_zero _ (by rw [h3]; exact hz)

theorem FlowOk.nack {c : Channel} {np : NackPacket} {size : Nat} (h : FlowOk c start size)
    (hz : size ≠ 0) : FlowOk (c.handleNack np).ch start size := by
  obtain ⟨_, _, hlast, hwin⟩ := Channel.handleNack_frame np c
  have hw := h.win
  refine ⟨by rw [hlast]; exact h.ackSeq, by rw [hlast]; exact h.ackLe, ?_, fun h0 => absurd h0 hz⟩
  rcases hwin with hwin | hwin <;> rw [hwin]
  · exact hw
  · have := shrunkWindow_le c.startUp c.txWinSize
    omega

/-! ### Writing -/

/-- `write` is called with fewer bytes than its 32-bit length can count. -/
theorem TxOk.startWrite {bytes : List UInt8} (h : TxOk s start size lost) (hidle : s.writer = .idle)
    (hlen : bytes.length < 2 ^ 32) :
    TxOk (s.startWrite bytes) start size lost ∧ Extends s (s.startWrite bytes) lost lost := by
  have htake : bytes.take (bytes.length % 2 ^ 32) = bytes := by
    rw [Nat.mod_eq_of_lt hlen, List.take_length]
  have htop : (s.startWrite bytes).top = s.top := by
    unfold Side.top Side.startWrite Writer.next
    rw [hidle]
    split_ifs <;> rfl
  refine ⟨{ h with held := ?_, blocked := ?_, intact := ?_, broken := ?_ },
    ⟨[], by simp [Side.startWrite]⟩, htop.ge, List.prefix_append _ _, .inl rfl⟩
  · intro hc d hd
    rw [htop]
    exact h.held hc d hd
  · intro dp rest w hw
    simp only [Side.startWrite, Writer.next] at hw
    split_ifs at hw
  · intro hl
    have := h.intact hl
    rw [hidle] at this
    rw [Writer.rest, List.append_nil] at this
    simp only [Side.startWrite, htake, Writer.rest_next, ← this]
  · intro m hm
    rw [htop]
    exact ⟨(h.broken m hm).1, (h.broken m hm).2.trans (List.prefix_append _ _)⟩

/-- Taking the next sequence number, seen as the start of a wait. -/
theorem TxOk.take {rest : List UInt8} (h : TxOk s start size lost) (hrun : s.writer = .running rest) :
    let r := s.ch.takePacket (rest.take maxPayload)
    let s' : Side := { s with
      ch := r.1, chunks := s.chunks ++ [rest.take maxPayload],
      writer := .blocked r.2 (rest.drop maxPayload) false }
    TxOk s' start size lost ∧ Extends s s' lost lost := by
  intro r s'
  have htop : s'.top = s.top := by
    simp [Side.top, s', hrun]
  refine ⟨⟨?_, ?_, h.ackSeq, h.ackLe, h.win, h.zero, ?_, ?_, ?_, ?_⟩,
    ⟨_, rfl⟩, htop.ge, List.prefix_rfl, .inl rfl⟩
  · simp only [s', r, Channel.takePacket, h.nextSeq, SeqNum.seqOf_succ]
  · simp [s', r, Channel.takePacket, h.nextLen]
  · intro hc d hd
    rw [htop]
    exact (h.held hc d hd).mono _ s.top_le (Nat.le_refl _) (Nat.le_refl _) (.inl rfl)
  · intro dp rest' w hw
    simp only [s', Writer.blocked.injEq] at hw
    obtain ⟨rfl, -, -⟩ := hw
    simp only [s', r, Channel.takePacket]
    refine ⟨trivial, by rw [h.nextSeq, SeqNum.seqOf_succ], ?_, by omega⟩
    rw [← h.nextLen, chunkAt_last]
  · intro hl
    have := h.intact hl
    rw [hrun] at this
    simp only [s', Writer.rest, List.flatten_append, List.flatten_cons, List.flatten_nil,
      List.append_nil, List.append_assoc, List.take_append_drop]
    exact this
  · intro m hm
    rw [htop]
    have hb := h.broken m hm
    refine ⟨hb.1, ?_⟩
    simp only [s']
    rw [List.take_append_of_le_length (hb.1.trans s.top_le)]
    exact hb.2

/-- The packet whose number is taken has to wait for the window. -/
theorem TxOk.wait {dp : DataPacket} {rest : List UInt8} {w : Bool} (h : TxOk s start size lost)
    (hb : s.writer = .blocked dp rest w) :
    TxOk { s with writer := .blocked dp rest false } start size lost ∧
      Extends s { s with writer := .blocked dp rest false } lost lost := by
  have htop : ({ s with writer := .blocked dp rest false } : Side).top = s.top := by
    simp [Side.top, hb]
  refine ⟨{ h with held := ?_, blocked := ?_, intact := ?_, broken := ?_ }, .of_eq rfl htop rfl⟩
  · intro hch d hd
    rw [htop]
    exact h.held hch d hd
  · intro dp' rest' w' hw
    simp only [Writer.blocked.injEq] at hw
    obtain ⟨rfl, _, _⟩ := hw
    exact h.blocked dp rest w hb
  · intro hl
    have hintact := h.intact hl
    rw [hb] at hintact
    exact hintact
  · intro m hm
    rw [htop]
    exact h.broken m hm

/-- The call ends without having sent the packet it took a number for. -/
theorem TxOk.giveUp {dp : DataPacket} {rest : List UInt8} {w : Bool} {c : Channel}
    (h : TxOk s start size lost) (hb : s.writer = .blocked dp rest w)
    (hk : c.nextTxSeq = s.ch.nextTxSeq ∧ c.nextTxIdx = s.ch.nextTxIdx)
    (hf : Channel.SameFlow s.ch c)
    (hwin : c.chan = true → ∀ d ∈ c.txWin, d ∈ s.ch.txWin ∧ s.ch.chan = true) :
    ∃ lost', TxOk { s with ch := c, writer := .idle } start size lost' ∧
      Extends s { s with ch := c, writer := .idle } lost lost' := by
  obtain ⟨hidx, _, _, hpos⟩ := h.blocked dp rest w hb
  have hlen := h.nextLen
  have hs : s.top = s.chunks.length - 1 := by simp [Side.top, hb]
  have htop : ({ s with ch := c, writer := .idle } : Side).top = s.chunks.length := by simp [Side.top]
  have hflow := h.flow.same hf
  -- the first packet to be given up is the one the stream never gets past
  refine ⟨lost.or (some s.chunks.length), ⟨?_, ?_, hflow.ackSeq, hflow.ackLe, hflow.win, hflow.zero,
    fun hc d hd => ?_, (by simp), ?_, ?_⟩, ⟨[], by simp⟩, by omega, List.prefix_rfl, ?_⟩
  · simp only [hk.1, hk.2]
    exact h.nextSeq
  · simp only [hk.2]
    exact hlen
  · obtain ⟨hd, hsc⟩ := hwin hc d hd
    rw [htop]
    have hlost : lost.or (some s.chunks.length) = lost ∨
        ∃ m, lost.or (some s.chunks.length) = some m ∧ s.top < m := by
      cases lost with
      | none => exact .inr ⟨_, rfl, by omega⟩
      | some m => exact .inl rfl
    have := (h.held hsc d hd).mono [] s.top_le (show _ ≤ s.chunks.length by omega) (Nat.le_refl _) hlost
    simpa using this
  · cases lost <;> simp
  · intro m hm
    rw [htop]
    cases hl : lost with
    | none =>
      rw [hl] at hm
      obtain rfl : s.chunks.length = m := by simpa using hm
      have := h.intact hl
      refine ⟨Nat.le_refl _, ?_⟩
      rw [List.take_length, ← this]
      exact List.prefix_append _ _
    | some m' =>
      rw [hl] at hm
      obtain rfl : m' = m := by simpa using hm
      have := h.broken m' hl
      exact ⟨by omega, this.2⟩
  · cases hl : lost with
    | none => exact .inr ⟨rfl, _, rfl, by omega⟩
    | some m => exact .inl rfl

/-- `can_send` is compared within half the number space, so it bounds the packet by
the receiver's window. -/
theorem TxOk.window_of_canSend (h : TxOk s start size lost) (hc : s.ch.canSend = true)
    (hsize : size ≤ 4096) (hstart : start ≤ s.ch.nextTxIdx + 1)
    (hnear : s.ch.nextTxIdx < s.ch.lastRxAck.rxWinStartIdx + 2 ^ 15) :
    s.ch.nextTxIdx < s.ch.lastRxAck.rxWinStartIdx + s.ch.txWinSize.toNat := by
  have hwin := h.win
  have hack := h.ackLe
  have near : SeqNum.Near s.ch.nextTxIdx (s.ch.lastRxAck.rxWinStartIdx + s.ch.txWinSize.toNat) :=
    ⟨by omega, by omega⟩
  have heq : s.ch.lastRxAck.rxWinStart + s.ch.txWinSize =
      seqOf (s.ch.lastRxAck.rxWinStartIdx + s.ch.txWinSize.toNat) := by
    rw [SeqNum.seqOf_add, h.ackSeq, SeqNum.seqOf_toNat]
  rw [Channel.canSend, heq, h.nextSeq, SeqNum.lt_seqOf near] at hc
  simpa using hc

/-- A waiting packet is sent, on an open channel. -/
theorem TxOk.send {dp : DataPacket} {rest : List UInt8} {w : Bool}
    (h : TxOk s start size lost) (hb : s.writer = .blocked dp rest w)
    (hwindow : dp.idx ≤ start + size) (hzero : size = 0 → dp.idx ≤ 1) :
    let s' : Side := { s with ch := (s.ch.sendPacket dp).1, writer := Writer.next rest }
    TxOk s' start size lost ∧ Extends s s' lost lost ∧
      Genuine s'.chunks s'.top start size lost dp.seq dp.data dp.idx := by
  intro s'
  obtain ⟨hidx, hseq, hdata, hpos⟩ := h.blocked dp rest w hb
  have hlen := h.nextLen
  have hs : s.top = s.chunks.length - 1 := by simp [Side.top, hb]
  have hs' : s'.top = s.chunks.length := by
    simp only [Side.top, s', Writer.next]
    split_ifs <;> rfl
  have hlost : lost ≠ some dp.idx := by
    intro hl
    have := (h.broken _ hl).1
    omega
  have hgen : Genuine s'.chunks s'.top start size lost dp.seq dp.data dp.idx :=
    ⟨hseq, hpos, by omega, hdata, hwindow, hzero, hlost⟩
  refine ⟨⟨h.nextSeq, hlen, h.ackSeq, h.ackLe, h.win, h.zero, fun hc d hd => ?_, fun dp' r' w' hw => ?_,
    fun hl => ?_, fun m hm => ?_⟩, ⟨⟨[], by simp [s']⟩, by omega, List.prefix_rfl, .inl rfl⟩, hgen⟩
  · simp only [s', Channel.sendPacket] at hd
    rcases List.mem_append.mp hd with hd | hd
    · rw [hs']
      have := (h.held hc d hd).mono [] s.top_le (show _ ≤ s.chunks.length by omega)
        (Nat.le_refl _) (.inl rfl)
      simpa using this
    · rw [List.mem_singleton.mp hd]
      exact hgen
  · simp only [s', Writer.next] at hw
    split_ifs at hw
  · have := h.intact hl
    rw [hb, Writer.rest] at this
    simp only [s', Writer.rest_next]
    exact this
  · have := h.broken m hm
    exact ⟨by omega, this.2⟩

/-! ### The receiver's role -/

/-- An endpoint whose fibers were woken but whose receive window did not change. -/
theorem RxOk.same {o : Outcome} (h : RxOk t chunks top lost passed)
    (hs : Channel.SameRx t.ch o.ch) : RxOk (t.after o) chunks top lost passed := by
  obtain ⟨⟨seq, now, hack⟩, hwin, hchan⟩ := hs
  simp only [Side.after]
  refine ⟨?_, ?_, ?_, ?_, ?_, ?_, ?_, ?_, ?_, ?_, ?_, ?_⟩ <;> simp only [hack, hwin, hchan, Reader.got_wake]
  · exact h.pos
  · exact h.startLe
  · exact h.endLe
  · exact h.small
  · exact h.zero
  · exact h.flags
  · exact h.lostLe
  · exact h.delivered
  · exact h.closed
  · intro hc
    have hw := h.window hc
    exact ⟨hw.startSeq, hw.endSeq, hw.small, hw.startLe, hw.span, hw.sorted, hw.held, hw.last, hw.missed⟩
  · exact h.held
  · exact h.stream

theorem RxOk.close {o : Outcome} (h : RxOk t chunks top lost passed) (hchan : o.ch.chan = false)
    (hwin : o.ch.rxWin = []) (hack : o.ch.rxAckPack = { t.ch.rxAckPack with missedSeq := [] }) :
    RxOk (t.after o) chunks top lost passed := by
  simp only [Side.after]
  refine ⟨?_, ?_, ?_, ?_, ?_, ?_, ?_, ?_, ?_, ?_, ?_, ?_⟩ <;>
    simp only [hack, hwin, hchan, Reader.got_wake]
  · exact h.pos
  · exact h.startLe
  · exact h.endLe
  · exact h.small
  · exact h.zero
  · exact h.flags
  · exact h.lostLe
  · exact h.delivered
  · exact fun _ => trivial
  · simp
  · simp
  · simp

/-- A young genuine packet can be placed by the 16-bit comparisons. -/
theorem RxOk.placed {dp : DataPacket} (h : RxOk t chunks top lost passed) (hc : t.ch.chan = true)
    (hg : Genuine chunks top t.ch.rxAckPack.rxWinStartIdx t.ch.rxAckPack.rxWinSize.toNat lost
      dp.seq dp.data dp.idx)
    (hyoung : t.ch.rxAckPack.rxWinEndIdx + t.ch.rxAckPack.rxWinSize.toNat < dp.idx + 2 ^ 15) :
    Channel.Placed dp (Channel.advanceTx dp.rxWinStart (Channel.startSynTimer t.ch)) := by
  refine ⟨?_, hg.seq, ?_, ?_⟩ <;>
    simp only [Channel.advanceTx_rxAckPack, Channel.advanceTx_rxWin, Channel.startSynTimer_rxAckPack,
      Channel.startSynTimer_rxWin]
  · exact h.window hc
  · exact hg.window
  · have := hg.pos
    have := h.zero
    omega

theorem RxOk.data {dp : DataPacket} (h : RxOk t chunks top lost passed) (hc : t.ch.chan = true)
    (hg : Genuine chunks top t.ch.rxAckPack.rxWinStartIdx t.ch.rxAckPack.rxWinSize.toNat lost
      dp.seq dp.data dp.idx)
    (hyoung : t.ch.rxAckPack.rxWinEndIdx + t.ch.rxAckPack.rxWinSize.toNat < dp.idx + 2 ^ 15) :
    RxOk (t.after (t.ch.handleData dp)) chunks top lost passed := by
  have hst := (h.placed hc hg hyoung).stored
  obtain ⟨ack, win, hch, h1, h2, h3, h4, h5⟩ :=
    Channel.storeData_frame dp (Channel.advanceTx dp.rxWinStart (Channel.startSynTimer t.ch))
  obtain ⟨hwin, hend, hmem⟩ := hst
  simp only [hch, Channel.advanceTx_rxAckPack, Channel.advanceTx_rxWin,
    Channel.startSynTimer_rxAckPack, Channel.startSynTimer_rxWin] at hwin hend hmem h1 h2 h3 h4 h5
  have heq : (t.ch.handleData dp).ch = { Channel.advanceTx dp.rxWinStart (Channel.startSynTimer t.ch)
      with rxAckPack := ack, rxWin := win } := hch
  have hzero := h.zero
  have hpos := hg.pos
  simp only [Side.after, heq]
  refine ⟨?_, ?_, ?_, ?_, ?_, ?_, ?_, ?_, ?_, ?_, ?_, ?_⟩ <;>
    simp only [Channel.advanceTx_chan, Channel.startSynTimer_chan, Reader.got_wake]
  · rw [h2]
    exact h.pos
  · rw [h2, hend]
    have := h.startLe
    omega
  · rw [hend]
    have := h.endLe
    have := hg.le
    omega
  · rw [h3]
    exact h.small
  · intro h0
    rw [h3] at h0
    have := hg.zero h0
    rw [hend]
    omega
  · rw [h5]
    exact h.flags
  · rw [h2]
    exact h.lostLe
  · exact h.delivered
  · rw [hc]
    simp
  · exact fun _ => hwin
  · intro d hd
    rcases (hmem d).mp hd with hd | ⟨rfl, _, _⟩
    · exact h.held d hd
    · exact ⟨hg.le, hg.sent⟩
  · intro _
    obtain ⟨pre, hd, hs⟩ := h.stream hc
    rw [h2]
    refine ⟨pre, ⟨fun d hdm hde => ?_, fun d hdm hde => ?_, fun hne => ?_⟩, hs⟩
    · rcases (hmem d).mp hdm with hdm | ⟨rfl, _, hnew⟩
      · exact hd.first d hdm hde
      · -- nothing was read yet of a packet that was not there
        by_cases hp : pre = []
        · rw [hp, List.nil_append, ← hde]
          exact hg.data
        · obtain ⟨e, he, hee⟩ := hd.begun hp
          exact absurd (hee.trans hde.symm) (hnew e he)
    · rcases (hmem d).mp hdm with hdm | ⟨rfl, _, _⟩
      · exact hd.rest d hdm hde
      · exact hg.data
    · obtain ⟨e, he, hee⟩ := hd.begun hne
      exact ⟨e, (hmem e).mpr (.inl he), hee⟩

/-- The only thing the receiver of a data packet sends is a nack, and not for a window
of size zero, which admits no gap. -/
theorem RxOk.data_sent {dp : DataPacket} (h : RxOk t chunks top lost passed) (hc : t.ch.chan = true)
    (hg : Genuine chunks top t.ch.rxAckPack.rxWinStartIdx t.ch.rxAckPack.rxWinSize.toNat lost
      dp.seq dp.data dp.idx)
    (hyoung : t.ch.rxAckPack.rxWinEndIdx + t.ch.rxAckPack.rxWinSize.toNat < dp.idx + 2 ^ 15)
    (start : Nat) :
    ∀ pkt ∈ (t.ch.handleData dp).sent, AckOk start t.ch.rxAckPack.rxWinSize pkt ∧ ∃ np, pkt = .nack np := by
  have hp := h.placed hc hg hyoung
  intro pkt hpkt
  rcases Channel.storeData_sent dp (Channel.advanceTx dp.rxWinStart (Channel.startSynTimer t.ch)) with
    hs | ⟨np, hs, hgt⟩
  · have hs' : (t.ch.handleData dp).sent = [] := hs
    rw [hs'] at hpkt
    simp at hpkt
  · have hs' : (t.ch.handleData dp).sent = [.nack np] := hs
    rw [hs', List.mem_singleton] at hpkt
    subst hpkt
    refine ⟨fun h0 => ?_, np, rfl⟩
    have hlt := hp.gt_next_iff.mp hgt
    simp only [Channel.advanceTx_rxAckPack, Channel.startSynTimer_rxAckPack] at hlt
    have := hg.zero h0
    omega

/-- What has been read is a prefix of what was written, also across a packet whose
`write` gave up: the window never gets past it. -/
theorem stream_prefix (htx : TxOk s start size lost) {r : Nat} {pre : List UInt8} {win : List DataPacket}
    (hpos : 1 ≤ r) (hr : r ≤ s.top + 1) (hlost : ∀ m, lost = some m → r ≤ m)
    (hheld : ∀ d ∈ win, d.idx ≤ s.top) (hd : WinData (chunkAt s.chunks) pre r win) :
    streamBefore (chunkAt s.chunks) r ++ pre <+: s.passed := by
  have htop := s.top_le
  obtain ⟨k, rfl⟩ : ∃ k, r = k + 1 := ⟨r - 1, by omega⟩
  have hflat : ∀ m, lost = some m ∨ lost = none ∧ m = s.chunks.length →
      (s.chunks.take m).flatten <+: s.passed := by
    rintro m (hm | ⟨hn, rfl⟩)
    · exact (htx.broken m hm).2
    · rw [List.take_length, ← htx.intact hn]
      exact List.prefix_append _ _
  obtain ⟨m, hm, hkm⟩ : ∃ m, (lost = some m ∨ lost = none ∧ m = s.chunks.length) ∧ k + 1 ≤ m + 1 := by
    cases hl : lost with
    | none => exact ⟨_, .inr ⟨rfl, rfl⟩, by omega⟩
    | some m => exact ⟨m, .inl rfl, by have := hlost m hl; omega⟩
  have take_le : ∀ j, j ≤ m → (s.chunks.take j).flatten <+: s.passed := by
    intro j hj
    refine List.IsPrefix.trans ?_ (hflat m hm)
    rw [← List.take_append_drop j (s.chunks.take m), List.flatten_append, List.take_take,
      Nat.min_eq_left hj]
    exact List.prefix_append _ _
  by_cases hp : pre = []
  · rw [hp, List.append_nil, streamBefore_chunkAt _ (by omega)]
    exact take_le k (by omega)
  · obtain ⟨d, hdm, hde⟩ := hd.begun hp
    have hdt := hheld d hdm
    have hk : k + 1 ≤ m := by
      rcases hm with hm | ⟨_, rfl⟩
      · exact hlost m hm
      · omega
    refine List.IsPrefix.trans ?_ (take_le (k + 1) hk)
    rw [← streamBefore_chunkAt _ (by omega), streamBefore_succ _ hpos, ← hd.first d hdm hde,
      ← List.append_assoc]
    exact List.prefix_append _ _

/-- A closed channel has nothing to copy. -/
theorem RxOk.readMore_closed (h : RxOk t chunks top lost passed) (len : Nat) (hc : t.ch.chan = false) :
    RxOk (t.readMore len t.reader.got) chunks top lost passed ∧
      t.ch.rxAckPack.rxWinStartIdx ≤ (t.readMore len t.reader.got).ch.rxAckPack.rxWinStartIdx ∧
      (t.readMore len t.reader.got).ch.rxAckPack.rxWinSize = t.ch.rxAckPack.rxWinSize := by
  have hwin := h.closed hc
  rw [Side.readMore]
  simp only [hwin, Channel.readLoop, List.append_nil]
  split_ifs with hlen
  · refine ⟨?_, Nat.le_refl _, rfl⟩
    refine ⟨h.pos, h.startLe, h.endLe, h.small, h.zero, h.flags, h.lostLe, ?_, fun _ => rfl, ?_,
      (by simp), ?_⟩
    · simpa only [Reader.got, List.append_nil] using h.delivered
    · simp only [hc]
      simp
    · simp only [hc]
      simp
  · refine ⟨?_, Nat.le_refl _, rfl⟩
    refine ⟨h.pos, h.startLe, h.endLe, h.small, h.zero, h.flags, h.lostLe, h.delivered,
      fun _ => rfl, ?_, (by simp), ?_⟩
    · simp only [hc]
      simp
    · simp only [hc]
      simp

/-- An open channel copies what the window holds in order. -/
theorem RxOk.readMore_open (h : RxOk t s.chunks s.top lost s.passed) (len : Nat)
    (htx : TxOk s start size lost) (hc : t.ch.chan = true) :
    RxOk (t.readMore len t.reader.got) s.chunks s.top lost s.passed ∧
      t.ch.rxAckPack.rxWinStartIdx ≤ (t.readMore len t.reader.got).ch.rxAckPack.rxWinStartIdx ∧
      (t.readMore len t.reader.got).ch.rxAckPack.rxWinSize = t.ch.rxAckPack.rxWinSize := by
  obtain ⟨pre, hd, hs⟩ := h.stream hc
  obtain ⟨hw, hf, hle, hsub, hgone, hpassed, pre', hd', hstr⟩ :=
    Channel.readLoop_spec (chunkAt s.chunks) len (h.window hc) h.pos hd
  set r := Channel.readLoop t.ch.rxAckPack t.ch.rxWin len with hr
  have hend : r.2.2.2.rxWinEndIdx = t.ch.rxAckPack.rxWinEndIdx := by rw [hf]
  have hsize : r.2.2.2.rxWinSize = t.ch.rxAckPack.rxWinSize := by rw [hf]
  have hflags : r.2.2.2.flags = t.ch.rxAckPack.flags := by rw [hf]
  have hendLe := h.endLe
  have hheld : ∀ d ∈ r.2.2.1, d.idx ≤ s.top ∧ lost ≠ some d.idx := fun d hdm => by
    obtain ⟨e, he, hee⟩ := hsub d hdm
    rw [← hee]
    exact h.held e he
  have hlost : ∀ m, lost = some m → r.2.2.2.rxWinStartIdx ≤ m := by
    intro m hm
    by_contra hlt
    obtain ⟨d, hdm, hde⟩ := hpassed m (h.lostLe m hm) (by omega)
    exact (h.held d hdm).2 (by rw [hm, hde])
  have hstartLe := hw.startLe
  rw [hend] at hstartLe
  have hpos := h.pos
  have hall : t.returned ++ (t.reader.got ++ r.1) =
      streamBefore (chunkAt s.chunks) r.2.2.2.rxWinStartIdx ++ pre' := by
    rw [← List.append_assoc, hs, hstr]
  have hpre : t.returned ++ (t.reader.got ++ r.1) <+: s.passed := by
    rw [hall]
    exact stream_prefix htx (by omega) (by omega) hlost (fun d hdm => (hheld d hdm).1) hd'
  rw [Side.readMore]
  simp only [← hr]
  split_ifs
  all_goals
    refine ⟨⟨by simp only; omega, by simp only; omega, by simp only; omega, ?_, ?_, ?_, hlost, ?_, ?_,
      fun _ => hw, hheld, fun _ => ⟨pre', hd', ?_⟩⟩, hle, hsize⟩
    · simp only [hsize]
      exact h.small
    · simp only [hsize, hend]
      exact h.zero
    · simp only [hflags]
      exact h.flags
  · simpa only [Reader.got, List.append_nil] using hpre
  · simp only [hc]
    simp
  · simpa only [Reader.got, List.append_nil] using hall
  · exact hpre
  · simp only [hc]
    simp
  · exact hall

/-- A stretch of `read`. -/
theorem RxOk.readMore (h : RxOk t s.chunks s.top lost s.passed) (len : Nat)
    (htx : TxOk s start size lost) :
    RxOk (t.readMore len t.reader.got) s.chunks s.top lost s.passed ∧
      t.ch.rxAckPack.rxWinStartIdx ≤ (t.readMore len t.reader.got).ch.rxAckPack.rxWinStartIdx ∧
      (t.readMore len t.reader.got).ch.rxAckPack.rxWinSize = t.ch.rxAckPack.rxWinSize := by
  cases hc : t.ch.chan with
  | false => exact h.readMore_closed len hc
  | true => exact h.readMore_open len htx hc

end Tornet.Udt
