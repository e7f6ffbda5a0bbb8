import Tornet.Udt.Channel

/-! What each handler leaves alone: the sending half of the state keeps its numbering
and only forgets packets, the receiving half changes in `handle_data` only. -/
namespace Tornet.Udt.Channel

/-- The numbering is unchanged and every packet kept for retransmission was kept before. -/
structure KeepsTx (c c' : Channel) : Prop where
  nextTxSeq : c'.nextTxSeq = c.nextTxSeq
  nextTxIdx : c'.nextTxIdx = c.nextTxIdx
  chan : c'.chan = true → c.chan = true
  txWin : ∀ d ∈ c'.txWin, ∃ e ∈ c.txWin, e.idx = d.idx ∧ e.seq = d.seq ∧ e.data = d.data

/-- What the sender knows of the remote window, and its own window. -/
structure SameFlow (c c' : Channel) : Prop where
  lastRxAck : c'.lastRxAck = c.lastRxAck
  txWinSize : c'.txWinSize = c.txWinSize
  startUp : c'.startUp = c.startUp

/-- The receive window is unchanged, apart from the number and time of the next ack. -/
structure SameRx (c c' : Channel) : Prop where
  ack : ∃ seq now, c'.rxAckPack = { c.rxAckPack with ackSeq := seq, utcTime := now }
  rxWin : c'.rxWin = c.rxWin
  chan : c'.chan = c.chan

theorem KeepsTx.of_eq {c c' : Channel} (h1 : c'.nextTxSeq = c.nextTxSeq)
    (h2 : c'.nextTxIdx = c.nextTxIdx) (h3 : c'.chan = c.chan) (h4 : c'.txWin = c.txWin) :
    KeepsTx c c' :=
  ⟨h1, h2, fun h => h3 ▸ h, fun d hd => ⟨d, h4 ▸ hd, rfl, rfl, rfl⟩⟩

theorem KeepsTx.refl (c : Channel) : KeepsTx c c := .of_eq rfl rfl rfl rfl

theorem KeepsTx.trans {a b c : Channel} (h : KeepsTx a b) (h' : KeepsTx b c) : KeepsTx a c where
  nextTxSeq := h'.nextTxSeq.trans h.nextTxSeq
  nextTxIdx := h'.nextTxIdx.trans h.nextTxIdx
  chan hc := h.chan (h'.chan hc)
  txWin := by
    intro d hd
    obtain ⟨e, he, h1, h2, h3⟩ := h'.txWin d hd
    obtain ⟨f, hf, h4, h5, h6⟩ := h.txWin e he
    exact ⟨f, hf, h4.trans h1, h5.trans h2, h6.trans h3⟩

theorem SameFlow.refl (c : Channel) : SameFlow c c := ⟨rfl, rfl, rfl⟩

theorem SameFlow.trans {a b c : Channel} (h : SameFlow a b) (h' : SameFlow b c) : SameFlow a c :=
  ⟨h'.1.trans h.1, h'.2.trans h.2, h'.3.trans h.3⟩

theorem SameRx.of_eq {c c' : Channel} (h1 : c'.rxAckPack = c.rxAckPack) (h2 : c'.rxWin = c.rxWin)
    (h3 : c'.chan = c.chan) : SameRx c c' :=
  ⟨⟨_, _, h1⟩, h2, h3⟩

/-! ### The helpers -/

private theorem startSynTimer_keepsTx (c : Channel) : KeepsTx c (startSynTimer c) := by
  rw [startSynTimer]
  split_ifs <;> exact .of_eq rfl rfl rfl rfl

private theorem startSynTimer_sameFlow (c : Channel) : SameFlow c (startSynTimer c) := by
  rw [startSynTimer]
  split_ifs <;> exact ⟨rfl, rfl, rfl⟩

@[simp] theorem startSynTimer_rxAckPack (c : Channel) : (startSynTimer c).rxAckPack = c.rxAckPack := by
  rw [startSynTimer]
  split_ifs <;> rfl

@[simp] theorem startSynTimer_rxWin (c : Channel) : (startSynTimer c).rxWin = c.rxWin := by
  rw [startSynTimer]
  split_ifs <;> rfl

@[simp] theorem startSynTimer_chan (c : Channel) : (startSynTimer c).chan = c.chan := by
  rw [startSynTimer]
  split_ifs <;> rfl

private theorem advanceTx_keepsTx (w : SeqNum) (c : Channel) : KeepsTx c (advanceTx w c) :=
  ⟨rfl, rfl, id, fun d hd => ⟨d, (List.dropWhile_suffix _).subset hd, rfl, rfl, rfl⟩⟩

private theorem advanceTx_sameFlow (w : SeqNum) (c : Channel) : SameFlow c (advanceTx w c) := ⟨rfl, rfl, rfl⟩

@[simp] theorem advanceTx_rxAckPack (w : SeqNum) (c : Channel) :
    (advanceTx w c).rxAckPack = c.rxAckPack := rfl

@[simp] theorem advanceTx_rxWin (w : SeqNum) (c : Channel) : (advanceTx w c).rxWin = c.rxWin := rfl

@[simp] theorem advanceTx_chan (w : SeqNum) (c : Channel) : (advanceTx w c).chan = c.chan := rfl

/-- Posting the retransmission task touches neither window. -/
theorem retransmit_eq (c : Channel) : ∃ started task,
    retransmit c = { c with startedRetran := started, retranTask := task } := by
  rw [retransmit]
  split_ifs
  · exact ⟨_, _, rfl⟩
  · exact ⟨_, _, rfl⟩

/-! ### The handlers -/

private theorem storeData_keepsTx (dp : DataPacket) (c : Channel) : KeepsTx c (storeData dp c).ch := by
  rw [storeData]
  simp only
  split_ifs <;> exact .of_eq rfl rfl rfl rfl

private theorem storeData_sameFlow (dp : DataPacket) (c : Channel) : SameFlow c (storeData dp c).ch := by
  rw [storeData]
  simp only
  split_ifs <;> exact ⟨rfl, rfl, rfl⟩

theorem handleData_keepsTx (dp : DataPacket) (c : Channel) : KeepsTx c (handleData dp c).ch :=
  (startSynTimer_keepsTx c).trans ((advanceTx_keepsTx _ _).trans (storeData_keepsTx _ _))

theorem handleData_sameFlow (dp : DataPacket) (c : Channel) : SameFlow c (handleData dp c).ch :=
  (startSynTimer_sameFlow c).trans ((advanceTx_sameFlow _ _).trans (storeData_sameFlow _ _))

/-- An ack replaces the remote window, or is too old to, and regrows the own one. -/
theorem handleAck_frame (ap : AckPacket) (c : Channel) :
    KeepsTx c (handleAck ap c).ch ∧ SameRx c (handleAck ap c).ch ∧
      ((handleAck ap c).ch.lastRxAck = ap ∨ (handleAck ap c).ch.lastRxAck = c.lastRxAck) ∧
      (handleAck ap c).ch.txWinSize = grownWindow c.startUp c.txWinSize ap.rxWinSize ∧
      (handleAck ap c).ch.startUp = c.startUp := by
  obtain ⟨st, tk, hret⟩ := retransmit_eq { c with decOnNack := true, txMissList := ap.missedSeq }
  rw [handleAck]
  simp only [hret]
  split_ifs <;>
    exact ⟨⟨rfl, rfl, id, fun d hd => ⟨d, (List.dropWhile_suffix _).subset hd, rfl, rfl, rfl⟩⟩,
      .of_eq rfl rfl rfl, by simp [advanceTx], rfl, rfl⟩

/-- The only datagram an ack provokes is an ack2. -/
theorem handleAck_sent (ap : AckPacket) (c : Channel) : ∀ pkt ∈ (handleAck ap c).sent,
    ∃ ap2, pkt = .ack ap2 ∧ ap2.flags = .ack2 := by
  rw [handleAck]
  intro pkt hpkt
  simp only at hpkt
  split_ifs at hpkt <;> simp only [List.mem_singleton, List.not_mem_nil] at hpkt <;>
    exact ⟨_, hpkt, rfl⟩

theorem handleNack_frame (np : NackPacket) (c : Channel) :
    KeepsTx c (handleNack np c).ch ∧ SameRx c (handleNack np c).ch ∧
      (handleNack np c).ch.lastRxAck = c.lastRxAck ∧
      ((handleNack np c).ch.txWinSize = c.txWinSize ∨
        (handleNack np c).ch.txWinSize = shrunkWindow c.startUp c.txWinSize) := by
  rw [handleNack]
  simp only
  split_ifs
  all_goals
    obtain ⟨st, tk, hret⟩ := retransmit_eq _
    rw [hret]
    refine ⟨⟨rfl, rfl, id, fun d hd => ⟨d, (List.dropWhile_suffix _).subset hd, rfl, rfl, rfl⟩⟩,
      .of_eq rfl rfl rfl, rfl, ?_⟩
  · exact .inr rfl
  · exact .inl rfl

@[simp] theorem handleNack_sent (np : NackPacket) (c : Channel) : (handleNack np c).sent = [] := rfl

theorem retransmitStep_frame (c : Channel) :
    KeepsTx c (retransmitStep c).ch ∧ SameFlow c (retransmitStep c).ch ∧
      SameRx c (retransmitStep c).ch := by
  rw [retransmitStep]
  simp only
  split
  · exact ⟨.of_eq rfl rfl rfl rfl, ⟨rfl, rfl, rfl⟩, .of_eq rfl rfl rfl⟩
  split
  · exact ⟨.of_eq rfl rfl rfl rfl, ⟨rfl, rfl, rfl⟩, .of_eq rfl rfl rfl⟩
  have touched : ∀ (i : Nat) (a : SeqNum), ∀ d ∈ c.txWin.modify i fun e => { e with lastSentAckSeq := a },
      ∃ e ∈ c.txWin, e.idx = d.idx ∧ e.seq = d.seq ∧ e.data = d.data := by
    intro i a d hd
    obtain ⟨j, hj, rfl⟩ := List.mem_iff_getElem.mp hd
    rw [List.length_modify] at hj
    refine ⟨c.txWin[j], List.getElem_mem hj, ?_⟩
    rw [List.getElem_modify]
    split_ifs <;> exact ⟨rfl, rfl, rfl⟩
  split_ifs
  · exact ⟨⟨rfl, rfl, id, touched _ _⟩, ⟨rfl, rfl, rfl⟩, .of_eq rfl rfl rfl⟩
  · exact ⟨⟨rfl, rfl, id, touched _ _⟩, ⟨rfl, rfl, rfl⟩, .of_eq rfl rfl rfl⟩
  · exact ⟨.of_eq rfl rfl rfl rfl, ⟨rfl, rfl, rfl⟩, .of_eq rfl rfl rfl⟩

/-- Retransmission resends packets of `tx_win` as they were, on an open channel only. -/
theorem retransmitStep_sent (c : Channel) : ∀ pkt ∈ (retransmitStep c).sent,
    c.chan = true ∧ ∃ d ∈ c.txWin, pkt = dataPacket d := by
  rw [retransmitStep]
  simp only
  intro pkt hpkt
  split at hpkt
  · simp at hpkt
  split at hpkt
  · simp at hpkt
  rename_i d hfind
  split_ifs at hpkt with h1 h2
  · exact ⟨h2, d, List.mem_of_find?_eq_some hfind, by simpa using hpkt⟩
  · simp at hpkt
  · simp at hpkt

theorem onSyn_alive_frame (now : UInt64) (c : Channel) :
    KeepsTx c (onSyn now false c).ch ∧ SameFlow c (onSyn now false c).ch ∧
      SameRx c (onSyn now false c).ch := by
  unfold onSyn sendAck
  simp only [Bool.false_eq_true, if_false]
  split_ifs <;> exact ⟨.of_eq rfl rfl rfl rfl, ⟨rfl, rfl, rfl⟩, ⟨_, _, rfl⟩, rfl, rfl⟩

/-- The timer sends at most the ack datagram of the state it leaves. -/
theorem onSyn_alive_sent (now : UInt64) (c : Channel) : ∀ pkt ∈ (onSyn now false c).sent,
    pkt = ackDatagram (onSyn now false c).ch.rxAckPack ∧ c.chan = true := by
  unfold onSyn sendAck
  simp only [Bool.false_eq_true, if_false]
  split_ifs with h1 h2
  · simp [h1]
  · simp [h1]
  · simp

/-- An expired timer closes the channel without telling the other side. -/
theorem onSyn_expired_frame (now : UInt64) (c : Channel) :
    (onSyn now true c).sent = [] ∧ (onSyn now true c).ch.chan = false ∧
      (onSyn now true c).ch.rxWin = [] ∧
      (onSyn now true c).ch.rxAckPack = { c.rxAckPack with missedSeq := [] } ∧
      KeepsTx c (onSyn now true c).ch ∧ SameFlow c (onSyn now true c).ch :=
  ⟨by simp [onSyn, close], rfl, rfl, rfl, ⟨rfl, rfl, fun h => (by cases h), by simp [onSyn, close]⟩, rfl, rfl, rfl⟩

theorem close_frame (sendClose : Bool) (c : Channel) :
    (close sendClose c).ch.chan = false ∧ (close sendClose c).ch.rxWin = [] ∧
      (close sendClose c).ch.rxAckPack = { c.rxAckPack with missedSeq := [] } ∧
      KeepsTx c (close sendClose c).ch ∧ SameFlow c (close sendClose c).ch :=
  ⟨rfl, rfl, rfl, ⟨rfl, rfl, fun h => (by cases h), by simp [close]⟩, rfl, rfl, rfl⟩

/-- No datagram makes the receiver give out a number of its own. -/
theorem onRecv_keepsTx (p : Packet) (c : Channel) : KeepsTx c (onRecv p c).ch := by
  cases p with
  | data rxWinStart seq payload idx => exact handleData_keepsTx _ c
  | ack ap =>
    simp only [onRecv]
    split
    · exact (handleAck_frame ap c).1
    · exact .of_eq rfl rfl rfl rfl
    · exact .refl c
  | nack np => exact (handleNack_frame np c).1
  | close => exact .refl c

theorem storeData_chan (dp : DataPacket) (c : Channel) : (storeData dp c).ch.chan = c.chan := by
  rw [storeData]
  simp only
  split_ifs <;> rfl

/-- A datagram does not free the channel: a close packet only posts the task that does. -/
theorem onRecv_chan (p : Packet) (c : Channel) : (onRecv p c).ch.chan = c.chan := by
  cases p with
  | data rxWinStart seq payload idx => exact (storeData_chan _ _).trans (startSynTimer_chan c)
  | ack ap =>
    simp only [onRecv]
    split
    · exact (handleAck_frame ap c).2.1.chan
    · rfl
    · rfl
  | nack np => exact (handleNack_frame np c).2.1.chan
  | close => rfl

theorem onSyn_keepsTx (now : UInt64) (expired : Bool) (c : Channel) : KeepsTx c (onSyn now expired c).ch := by
  cases expired with
  | false => exact (onSyn_alive_frame now c).1
  | true => exact (onSyn_expired_frame now c).2.2.2.2.1

end Tornet.Udt.Channel
