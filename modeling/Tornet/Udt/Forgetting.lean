import Mathlib.Data.List.TakeWhile
import Tornet.Udt.FlowControl

/-! What the sender forgets: a transmitted packet leaves `tx_win` only after the receiver's
`rx_win_start` has passed it. -/
namespace Tornet.Udt
open Library Runs

/-- The `rx_win_start` that a datagram hands to `advance_tx`. -/
def Packet.reported : Packet → Option SeqNum
  | .data w _ _ _ => some w
  | .ack ap => if ap.flags = .ack then some ap.rxWinStart else none
  | .nack np => some np.rxWinStart
  | .close => none

/-- No datagram arrives once the window start it reports lies `2^15 - rx_win_size` or more behind. -/
def YoungStart (n : Net) : Event → Prop
  | .deliver p i => ∀ w, ((n.flight p.other)[i]?).bind Packet.reported = some w →
    ((n.side p.other).ch.rxAckPack.rxWinStart - w).toNat +
      (n.side p.other).ch.rxAckPack.rxWinSize.toNat ≤ 2 ^ 15
  | _ => True

instance (n : Net) : (e : Event) → Decidable (YoungStart n e)
  | .deliver p i =>
    decidable_of_iff ((((n.flight p.other)[i]?).bind Packet.reported).all fun w =>
      ((n.side p.other).ch.rxAckPack.rxWinStart - w).toNat +
        (n.side p.other).ch.rxAckPack.rxWinSize.toNat ≤ 2 ^ 15) (by simp [YoungStart, Option.all_eq_true])
  | .write .. | .writeNext _ | .writeWake _ | .writeTimeout _ | .read .. | .readWake _ | .syn ..
  | .retransmit _ | .close _ | .closeTask _ | .drop .. | .dup .. => isTrue trivial

namespace Channel

/-- Every packet kept for retransmission is kept further on, up to its last resend number. -/
def HoldsTx (c c' : Channel) : Prop := ∀ d ∈ c.txWin, ∃ e ∈ c'.txWin, e.idx = d.idx

theorem HoldsTx.of_eq {c c' : Channel} (h : c'.txWin = c.txWin) : HoldsTx c c' :=
  fun d hd => ⟨d, h ▸ hd, rfl⟩

/-- What `advance_tx` leaves of `tx_win`. -/
def keptFrom (rxWinStart : SeqNum) (c : Channel) : List DataPacket :=
  c.txWin.dropWhile fun d => SeqNum.lt d.seq rxWinStart

/-- It drops packets from the front, while they are before the new start. -/
theorem advanceTx_holds (w : SeqNum) (c : Channel) : ∀ d ∈ c.txWin,
    d ∈ keptFrom w c ∨ SeqNum.lt d.seq w = true := by
  intro d hd
  rw [← List.takeWhile_append_dropWhile (p := fun d => SeqNum.lt d.seq w) (l := c.txWin)] at hd
  rcases List.mem_append.mp hd with hd | hd
  · exact .inr (List.mem_takeWhile_imp (p := fun d : DataPacket => SeqNum.lt d.seq w) hd)
  · exact .inl hd

/-- A datagram does nothing to `tx_win` but hand the window start that it reports to `advance_tx`. -/
theorem onRecv_txWin (p : Packet) (c : Channel) :
    (onRecv p c).ch.txWin = p.reported.elim c.txWin fun w => keptFrom w c := by
  cases p with
  | data w seq payload idx =>
    have hsyn : (startSynTimer c).txWin = c.txWin := by
      rw [startSynTimer]
      split_ifs <;> rfl
    obtain ⟨ack, win, heq, _⟩ := storeData_frame
      { rxWinStart := w, seq := seq, data := payload, idx := idx } (advanceTx w (startSynTimer c))
    change (storeData _ (advanceTx w (startSynTimer c))).ch.txWin = _
    rw [heq]
    exact congrArg (List.dropWhile _) hsyn
  | ack ap =>
    cases hf : ap.flags with
    | ack =>
      obtain ⟨st, tk, hret⟩ := retransmit_eq { c with decOnNack := true, txMissList := ap.missedSeq }
      simp only [onRecv, hf, handleAck, hret, Packet.reported]
      split_ifs <;> rfl
    | _ => simp only [onRecv, hf, Packet.reported, reduceCtorEq, if_false, Option.elim_none, handleAck2, stopSynTimer]
  | nack np =>
    simp only [onRecv, handleNack]
    split_ifs <;> (obtain ⟨st, tk, hret⟩ := retransmit_eq _; rw [hret]) <;> rfl
  | close => rfl

/-- A datagram only makes the endpoint forget packets before the window start it reports. -/
theorem onRecv_holds (p : Packet) (c : Channel) : ∀ d ∈ c.txWin,
    d ∈ (onRecv p c).ch.txWin ∨ ∃ w, p.reported = some w ∧ SeqNum.lt d.seq w = true := by
  intro d hd
  rw [onRecv_txWin]
  cases p.reported with
  | none => exact .inl hd
  | some w => exact (advanceTx_holds w c d hd).imp_right fun h => ⟨w, rfl, h⟩

/-- No datagram moves the start of the own receive window. -/
theorem onRecv_startIdx (p : Packet) (c : Channel) :
    (onRecv p c).ch.rxAckPack.rxWinStartIdx = c.rxAckPack.rxWinStartIdx := by
  cases p with
  | data w seq payload idx =>
    obtain ⟨ack, win, heq, _, hidx, _⟩ := storeData_frame
      { rxWinStart := w, seq := seq, data := payload, idx := idx } (advanceTx w (startSynTimer c))
    change (storeData _ (advanceTx w (startSynTimer c))).ch.rxAckPack.rxWinStartIdx = _
    rw [heq]
    simp only [hidx, advanceTx_rxAckPack, startSynTimer_rxAckPack]
  | ack ap =>
    simp only [onRecv]
    split
    · obtain ⟨_, _, hack⟩ := (handleAck_frame ap c).2.1.ack
      rw [hack]
    · rfl
    · rfl
  | nack np =>
    obtain ⟨_, _, hack⟩ := (handleNack_frame np c).2.1.ack
    simp only [onRecv, hack]
  | close => rfl

/-- No datagram is answered with data. -/
theorem onRecv_sent (p : Packet) (c : Channel) (w seq : SeqNum) (payload : List UInt8) (idx : Nat) :
    .data w seq payload idx ∉ (onRecv p c).sent := by
  intro hmem
  cases p with
  | data w seq payload idx =>
    rcases storeData_sent { rxWinStart := w, seq := seq, data := payload, idx := idx }
      (advanceTx w (startSynTimer c)) with hs | ⟨np, hs, _⟩
    all_goals
      change _ ∈ (storeData _ _).sent at hmem
      rw [hs] at hmem
      simp at hmem
  | ack ap =>
    simp only [onRecv] at hmem
    split at hmem
    · obtain ⟨_, heq, _⟩ := handleAck_sent ap c _ hmem
      cases heq
    · cases hmem
    · cases hmem
  | nack np => cases hmem
  | close => cases hmem

private theorem retransmitStep_holds (c : Channel) : HoldsTx c (retransmitStep c).ch := by
  have touched : ∀ (i : Nat) (a : SeqNum), ∀ d ∈ c.txWin,
      ∃ e ∈ c.txWin.modify i fun e => { e with lastSentAckSeq := a }, e.idx = d.idx := by
    intro i a d hd
    obtain ⟨j, hj, rfl⟩ := List.mem_iff_getElem.mp hd
    refine ⟨_, List.getElem_mem (by rw [List.length_modify]; exact hj), ?_⟩
    rw [List.getElem_modify]
    split_ifs <;> rfl
  rw [retransmitStep]
  simp only
  split
  · exact .of_eq rfl
  split
  · exact .of_eq rfl
  split_ifs
  · exact touched _ _
  · exact touched _ _
  · exact .of_eq rfl

/-- The start of the window only moves forward in `read`. -/
theorem readLoop_start_le (ack : AckPacket) (win : List DataPacket) (len : Nat) :
    ack.rxWinStartIdx ≤ (readLoop ack win len).2.2.2.rxWinStartIdx := by
  induction win generalizing ack len with
  | nil => exact Nat.le_refl _
  | cons d rest ih =>
    rw [readLoop]
    simp only
    split_ifs
    · exact Nat.le_refl _
    · have hle := ih { ack with
        rxWinStart := ack.rxWinStart + 1, rxWinStartIdx := ack.rxWinStartIdx + 1 } (len - min len d.data.length)
      exact Nat.le_of_succ_le hle
    · exact Nat.le_refl _

end Channel

def Net.Open (n : Net) : Prop := ∀ p, (n.side p).ch.chan = true

/-- The packet of count `idx` can still be resent, or the receiver has consumed it. -/
def Kept (n : Net) (p : Peer) (idx : Nat) : Prop :=
  (∃ d ∈ (n.side p).ch.txWin, d.idx = idx) ∨ idx < (n.side p.other).ch.rxAckPack.rxWinStartIdx

/-- While both channels are open, the packets of `S` and all those on the wire are kept. The
packets of `S` are numbered as they were. -/
structure Remembers (S : Peer → Nat → List UInt8 → Prop) (n : Net) : Prop where
  kept : n.Open → ∀ p idx payload, (S p idx payload ∨ ∃ w seq, Packet.data w seq payload idx ∈ n.flight p) →
    Kept n p idx
  numbered : ∀ p idx payload, S p idx payload →
    1 ≤ idx ∧ idx ≤ (n.side p).chunks.length ∧ chunkAt (n.side p).chunks idx = payload

/-- What a step of endpoint `p` to `s'` must do for nothing to be forgotten too early. -/
structure Advances (n : Net) (p : Peer) (s' : Side) (sent : List Packet) : Prop where
  chunks : (n.side p).chunks <+: s'.chunks
  chan : s'.ch.chan = true → (n.side p).ch.chan = true
  start : (n.side p).ch.rxAckPack.rxWinStartIdx ≤ s'.ch.rxAckPack.rxWinStartIdx
  held : s'.ch.chan = true → (n.side p.other).ch.chan = true → ∀ d ∈ (n.side p).ch.txWin,
    (∃ e ∈ s'.ch.txWin, e.idx = d.idx) ∨ d.idx < (n.side p.other).ch.rxAckPack.rxWinStartIdx
  sent : s'.ch.chan = true → ∀ w seq payload idx, Packet.data w seq payload idx ∈ sent →
    ∃ e ∈ s'.ch.txWin, e.idx = idx

variable {n n' : Net} {e : Event} {p : Peer} {s' : Side} {sent : List Packet} {S : Peer → Nat → List UInt8 → Prop}

theorem Advances.of_holds (hchunks : s'.chunks = (n.side p).chunks)
    (hchan : s'.ch.chan = true → (n.side p).ch.chan = true)
    (hstart : (n.side p).ch.rxAckPack.rxWinStartIdx ≤ s'.ch.rxAckPack.rxWinStartIdx)
    (hheld : s'.ch.chan = true → Channel.HoldsTx (n.side p).ch s'.ch)
    (hsent : ∀ w seq payload idx, Packet.data w seq payload idx ∉ sent) : Advances n p s' sent :=
  ⟨hchunks ▸ List.prefix_refl _, hchan, hstart, fun hc _ d hd => .inl (hheld hc d hd),
    fun _ w seq payload idx hmem => absurd hmem (hsent w seq payload idx)⟩

private theorem eq_or_other (q p : Peer) : q = p ∨ q = p.other := by
  cases q <;> cases p <;> simp [Peer.other]

theorem Advances.open_before (ha : Advances n p s' sent) (hopen : (n.put p s' sent).Open) : n.Open := by
  intro r
  rcases eq_or_other r p with rfl | rfl
  · have hp := hopen r
    rw [Net.put_side] at hp
    exact ha.chan hp
  · have ho := hopen p.other
    rwa [Net.put_side_other] at ho

theorem Advances.kept (ha : Advances n p s' sent) (hopen : (n.put p s' sent).Open) {q : Peer} {idx : Nat}
    (h : Kept n q idx) : Kept (n.put p s' sent) q idx := by
  have hp := hopen p
  have ho := hopen p.other
  rw [Net.put_side] at hp
  rw [Net.put_side_other] at ho
  unfold Kept at h ⊢
  rcases eq_or_other q p with rfl | rfl
  · rw [Net.put_side, Net.put_side_other]
    rcases h with ⟨d, hd, rfl⟩ | hlt
    · exact ha.held hp ho d hd
    · exact .inr hlt
  · rw [Peer.other_other] at h ⊢
    rw [Net.put_side, Net.put_side_other]
    exact h.imp_right fun hlt => Nat.lt_of_lt_of_le hlt ha.start

theorem Remembers.put (h : Remembers S n) (ha : Advances n p s' sent) : Remembers S (n.put p s' sent) where
  kept := by
    intro hopen q idx payload hq
    have hbefore := h.kept (ha.open_before hopen) q idx payload
    rcases hq with hS | ⟨w, seq, hmem⟩
    · exact ha.kept hopen (hbefore (.inl hS))
    · rcases eq_or_other q p with rfl | rfl
      · rw [Net.put_flight] at hmem
        rcases List.mem_append.mp hmem with hmem | hmem
        · exact ha.kept hopen (hbefore (.inr ⟨w, seq, hmem⟩))
        · have hp := hopen q
          rw [Net.put_side] at hp
          left
          rw [Net.put_side]
          exact ha.sent hp w seq payload idx hmem
      · rw [Net.put_flight_other] at hmem
        exact ha.kept hopen (hbefore (.inr ⟨w, seq, hmem⟩))
  numbered := by
    intro q idx payload hS
    obtain ⟨hpos, hle, hchunk⟩ := h.numbered q idx payload hS
    rcases eq_or_other q p with rfl | rfl
    · obtain ⟨more, hmore⟩ := ha.chunks
      rw [Net.put_side, ← hmore, chunkAt_append hpos hle, List.length_append]
      exact ⟨hpos, by omega, hchunk⟩
    · rw [Net.put_side_other]
      exact ⟨hpos, hle, hchunk⟩

theorem Remembers.flights (h : Remembers S n) {flight : Peer → List Packet}
    (hf : ∀ q, ∀ pkt ∈ flight q, pkt ∈ n.flight q) : Remembers S { n with flight := flight } where
  kept := fun hopen q idx payload hq => h.kept hopen q idx payload (hq.imp_right fun ⟨w, seq, hmem⟩ =>
    ⟨w, seq, hf q _ hmem⟩)
  numbered := h.numbered

/-! ### The steps -/

/-- An endpoint whose channel stays as it is. -/
theorem Advances.of_same (h : s'.ch = (n.side p).ch) (hc : s'.chunks = (n.side p).chunks) :
    Advances n p s' [] :=
  .of_holds hc (fun hc => h ▸ hc) (h ▸ Nat.le_refl _) (fun _ => .of_eq (by rw [h])) (by simp)

/-- The tail of `write`: a packet that is sent is kept. -/
theorem Advances.trySend {s : Side} (dp : DataPacket) (rest : List UInt8)
    (hchunks : (n.side p).chunks <+: s.chunks) (hchan : s.ch.chan = (n.side p).ch.chan) (hwin : s.ch.txWin = (n.side p).ch.txWin)
    (hack : s.ch.rxAckPack = (n.side p).ch.rxAckPack) :
    Advances n p (s.trySend dp rest).1 (s.trySend dp rest).2 := by
  by_cases hc : s.ch.canSend = true
  · have hs : s.trySend dp rest = _ := if_pos hc
    rw [hs]
    refine ⟨hchunks, fun h => hchan ▸ h, hack ▸ Nat.le_refl _, fun _ _ d hd => .inl ⟨d, ?_, rfl⟩, ?_⟩
    · exact List.mem_append_left _ (hwin ▸ hd)
    · intro _ w seq payload idx hmem
      refine ⟨dp, List.mem_append_right _ (List.mem_singleton_self dp), ?_⟩
      simp only [Channel.sendPacket] at hmem
      split_ifs at hmem
      · simp only [List.mem_singleton, Channel.dataPacket, Packet.data.injEq] at hmem
        exact hmem.2.2.2.symm
      · cases hmem
  · have hs : s.trySend dp rest = _ := if_neg hc
    rw [hs]
    exact ⟨hchunks, fun h => hchan ▸ h, hack ▸ Nat.le_refl _, fun _ _ d hd => .inl ⟨d, hwin ▸ hd, rfl⟩,
      fun _ _ _ _ _ hmem => (by cases hmem)⟩

theorem Advances.readMore (len : Nat) (got : List UInt8) :
    Advances n p ((n.side p).readMore len got) [] := by
  have hle := Channel.readLoop_start_le (n.side p).ch.rxAckPack (n.side p).ch.rxWin len
  rw [Side.readMore]
  simp only
  split_ifs
  · exact .of_holds rfl id hle (fun _ => .of_eq rfl) (by simp)
  · exact .of_holds rfl id hle (fun _ => .of_eq rfl) (by simp)

theorem Advances.retransmit :
    Advances n p ((n.side p).after (n.side p).ch.retransmitStep) (n.side p).ch.retransmitStep.sent := by
  obtain ⟨hkeeps, _, ⟨_, _, hack⟩, _, _⟩ := Channel.retransmitStep_frame (n.side p).ch
  have hholds := Channel.retransmitStep_holds (n.side p).ch
  refine ⟨List.prefix_refl _, hkeeps.chan, ?_, fun _ _ d hd => .inl (hholds d hd), fun _ w seq payload idx hmem => ?_⟩
  · change _ ≤ (n.side p).ch.retransmitStep.ch.rxAckPack.rxWinStartIdx
    rw [hack]
  · obtain ⟨_, d, hd, heq⟩ := Channel.retransmitStep_sent _ _ hmem
    cases heq
    exact hholds d hd

theorem Advances.syn (now : UInt64) (expired : Bool) : Advances n p
    ((n.side p).after ((n.side p).ch.onSyn now expired)) ((n.side p).ch.onSyn now expired).sent := by
  cases expired with
  | false =>
    obtain ⟨hkeeps, _, ⟨_, _, hack⟩, _, _⟩ := Channel.onSyn_alive_frame now (n.side p).ch
    refine .of_holds rfl hkeeps.chan ?_ (fun _ => .of_eq ?_) ?_
    · change _ ≤ ((n.side p).ch.onSyn now false).ch.rxAckPack.rxWinStartIdx
      rw [hack]
    · change ((n.side p).ch.onSyn now false).ch.txWin = _
      unfold Channel.onSyn Channel.sendAck
      simp only [Bool.false_eq_true, if_false]
      split_ifs <;> rfl
    · intro w seq payload idx hmem
      have heq := (Channel.onSyn_alive_sent now _ _ hmem).1
      cases heq
  | true =>
    exact .of_holds rfl (fun h => (by cases h)) (Nat.le_refl _) (fun h => (by cases h))
      (by simp [Channel.onSyn, Channel.close])

theorem Advances.close (sendClose task : Bool) : Advances n p
    { (n.side p).after ((n.side p).ch.close sendClose) with closeTask := task }
    ((n.side p).ch.close sendClose).sent := by
  refine .of_holds rfl (fun h => (by cases h)) (Nat.le_refl _) (fun h => (by cases h)) ?_
  intro w seq payload idx hmem
  simp only [Channel.close] at hmem
  split_ifs at hmem <;> simp at hmem

/-- A start at most half the number space back, as seen from a packet of the sender's window: no
packet at or past the receiver's start is before it. -/
private theorem lt_start_of_lt {start size idx : Nat} {w : SeqNum} (hidx : idx ≤ start + size)
    (hw : (seqOf start - w).toNat + size ≤ 2 ^ 15) (hlt : SeqNum.lt (seqOf idx) w = true) : idx < start := by
  by_contra hge
  obtain ⟨k, rfl⟩ : ∃ k, idx = start + k := ⟨idx - start, by omega⟩
  have hk : (seqOf k).toNat = k := by
    simp only [seqOf, Circular.wrap, BitVec.toNat_ofNat]
    omega
  rw [SeqNum.lt_iff, SeqNum.seqOf_add] at hlt
  generalize seqOf start = a at hw hlt
  generalize seqOf k = b at hk hlt
  bv_omega

theorem Advances.deliver {pkt : Packet} {i : Nat} (h : FlowInv n) (hy : YoungStart n (.deliver p i))
    (hi : (n.flight p.other)[i]? = some pkt) :
    Advances n p ((n.side p).after ((n.side p).ch.onRecv pkt)) ((n.side p).ch.onRecv pkt).sent := by
  refine ⟨List.prefix_refl _, (Channel.onRecv_keepsTx pkt _).chan, (Channel.onRecv_startIdx pkt _).symm.le, fun hc ho d hd => ?_,
    fun _ w seq payload idx hmem => absurd hmem (Channel.onRecv_sent pkt _ w seq payload idx)⟩
  · rcases Channel.onRecv_holds pkt _ d hd with hkeep | ⟨w, hw, hlt⟩
    · exact .inl ⟨d, hkeep, rfl⟩
    · obtain ⟨f, hf⟩ := h
      obtain ⟨lost, hl⟩ := hf p
      have hgen := hl.tx.held ((Channel.onRecv_keepsTx pkt _).chan hc) d hd
      have hstart := (hl.rx.window ho).startSeq
      have hback := hy w (by rw [hi]; exact hw)
      simp only [Net.withPassed_side, Side.withPassed_ch] at hstart
      rw [hstart] at hback
      rw [hgen.seq] at hlt
      exact .inr (lt_start_of_lt hgen.window hback hlt)

theorem Remembers.deliver {pkt : Packet} {i : Nat} (h : Remembers S n) (hf : FlowInv n)
    (hy : YoungStart n (.deliver p i)) (hi : (n.flight p.other)[i]? = some pkt) :
    Remembers S (n.deliver p pkt ((n.flight p.other).eraseIdx i)) := by
  have hsub : ∀ q, ∀ pkt' ∈ Function.update n.flight p.other ((n.flight p.other).eraseIdx i) q,
      pkt' ∈ n.flight q := fun q => mem_update_flight fun _ => List.mem_of_mem_eraseIdx
  cases hc : (n.side p).ch.chan with
  | false =>
    simp only [Net.deliver, hc, Bool.false_eq_true, if_false]
    exact h.flights hsub
  | true =>
    by_cases hp : pkt = .close
    · subst hp
      simp only [Net.deliver, hc, if_true]
      exact (h.flights hsub).put (.of_same rfl rfl)
    · rw [deliver_handle hc hp]
      refine (h.put (Advances.deliver hf hy hi)).flights fun q => mem_update_flight fun pkt' hpkt' => ?_
      rw [Net.handle, Net.put_flight_other]
      exact List.mem_of_mem_eraseIdx hpkt'

theorem Remembers.step (h : Remembers S n) (hf : FlowInv n) (hy : YoungStart n e)
    (hs : n.step e = some n') : Remembers S n' := by
  cases Net.takes_of_step hs with
  | write => exact h.put (.of_same rfl rfl)
  | writeNext => exact h.put (Advances.trySend _ _ (List.prefix_append _ _) rfl rfl rfl)
  | writeWake => exact h.put (Advances.trySend _ _ (List.prefix_refl _) rfl rfl rfl)
  | writeThrow => exact h.put (.of_same rfl rfl)
  | writeTimeout => exact h.put (.of_same rfl rfl)
  | read => exact h.put (Advances.readMore _ _)
  | readWake => exact h.put (Advances.readMore _ _)
  | readThrow => exact h.put (.of_same rfl rfl)
  | @syn _ now expired => exact h.put (Advances.syn now expired)
  | retransmit => exact h.put Advances.retransmit
  | @close p => exact h.put (Advances.close true (n.side p).closeTask)
  | closeTask => exact h.put (Advances.close false false)
  | deliver _ hi => exact h.deliver hf hy hi
  | drop => exact h.flights fun q => mem_update_flight fun _ => List.mem_of_mem_eraseIdx
  | dup hi => exact h.flights fun q => mem_update_flight fun _ => mem_of_mem_dup hi

/-! ### Runs -/

private theorem streamBefore_initial (content : Nat → List UInt8) {a b : Nat} (ha : 1 ≤ a) (hab : a ≤ b) :
    streamBefore content a <+: streamBefore content b := by
  induction b, hab using Nat.le_induction with
  | base => exact List.prefix_refl _
  | succ b hab ih =>
    rw [streamBefore_succ content (ha.trans hab)]
    exact ih.trans (List.prefix_append _ _)

/-- What the two arguments of a run keep together. -/
private theorem flow_step (S : Peer → Nat → List UInt8 → Prop) (n : Net) (e : Event) (n' : Net)
    (h : FlowInv n ∧ Remembers S n) (hok : YoungData n e ∧ YoungStart n e ∧ SendsNear n e)
    (hs : n.step e = some n') : FlowInv n' ∧ Remembers S n' :=
  ⟨h.1.step hok.1 hok.2.2 hs, h.2.step h.1 hok.2.1 hs⟩

/-- In every run with young packets in which no packet is sent half the number space ahead of the
acknowledged window: as long as both channels are open, a packet that was once on the wire
and is no longer in `tx_win` lies before the receiver's `rx_win_start`, and the receiving
application has been given the stream up to its last byte. -/
theorem forgotten_consumed (mwp : Peer → BitVec 16) (hm : ∀ p, (mwp p).toNat ≤ 4096) (es₁ es₂ : List Event)
    (m n : Net) (hrun₁ : run Net.step (Net.init mwp) es₁ = some m) (hrun₂ : run Net.step m es₂ = some n)
    (hg : Guarded Net.step (fun n e => YoungData n e ∧ YoungStart n e ∧ SendsNear n e) (Net.init mwp)
      (es₁ ++ es₂))
    (hopen : n.Open) (p : Peer) (w seq : SeqNum) (payload : List UInt8) (idx : Nat)
    (hsent : .data w seq payload idx ∈ m.flight p) (hgone : ∀ d ∈ (n.side p).ch.txWin, d.idx ≠ idx) :
    idx < (n.side p.other).ch.rxAckPack.rxWinStartIdx ∧
      streamBefore (chunkAt (n.side p).chunks) idx ++ payload <+:
        (n.side p.other).returned ++ (n.side p.other).reader.got := by
  obtain ⟨hg₁, hg₂⟩ := hg.of_append
  -- up to `m` only what is on the wire is remembered, from there on the packet too
  have hinit : Remembers (fun _ _ _ => False) (Net.init mwp) :=
    ⟨fun _ q i l hq => by simp [Net.init] at hq, fun _ _ _ h => h.elim⟩
  obtain ⟨hflow, hrem⟩ := invariant_of_guarded _ (flow_step _) ⟨FlowInv.init hm, hinit⟩ hg₁ hrun₁
  obtain ⟨f, hinv⟩ := hflow
  obtain ⟨lost, hlane⟩ := hinv p
  have hgen : Genuine (m.side p).chunks (m.side p).top _ _ lost seq payload idx := hlane.data _ hsent
  have hmark : Remembers (fun q i l => q = p ∧ i = idx ∧ l = payload) m := by
    refine ⟨fun ho q i l hq => hrem.kept ho q i l (.inr ?_), ?_⟩
    · rcases hq with ⟨rfl, rfl, rfl⟩ | hq
      · exact ⟨w, seq, hsent⟩
      · exact hq
    · rintro q i l ⟨rfl, rfl, rfl⟩
      exact ⟨hgen.pos, hgen.le.trans (m.side q).top_le, hgen.data.symm⟩
  obtain ⟨⟨g, hend⟩, hkept⟩ :=
    invariant_of_guarded _ (flow_step _) ⟨⟨f, hinv⟩, hmark⟩ (hg₂ m hrun₁) hrun₂
  obtain ⟨hpos, -, hchunk⟩ := hkept.numbered p idx payload ⟨rfl, rfl, rfl⟩
  have hlt : idx < (n.side p.other).ch.rxAckPack.rxWinStartIdx := by
    rcases hkept.kept hopen p idx payload (.inl ⟨rfl, rfl, rfl⟩) with ⟨d, hd, hidx⟩ | hlt
    · exact absurd hidx (hgone d hd)
    · exact hlt
  refine ⟨hlt, ?_⟩
  obtain ⟨lost', hl⟩ := hend p
  obtain ⟨pre, -, hstream⟩ := hl.rx.stream (hopen p.other)
  simp only [Net.withPassed_side, Side.withPassed_returned, Side.withPassed_reader, Side.withPassed_ch,
    Side.withPassed_chunks] at hstream
  rw [hstream, ← hchunk, ← streamBefore_succ _ hpos]
  exact (streamBefore_initial _ (by omega) hlt).trans (List.prefix_append _ _)

/-- Packet 1 is read and acknowledged. -/
theorem forgotten_consumed_first : ∃ m n,
    run Net.step (Net.init fun _ => 4096) [.write .a [7], .writeNext .a] = some m ∧
    run Net.step m [.deliver .b 0, .read .b 1, .syn .b 0 false, .deliver .a 0] = some n ∧
    .data 1 1 [7] 1 ∈ m.flight .a ∧ (n.side .a).ch.txWin = [] ∧
    1 < (n.side .b).ch.rxAckPack.rxWinStartIdx := by
  have hfirst : (run Net.step (Net.init fun _ => 4096) [.write .a [7], .writeNext .a]).map
      (fun m => (m.flight .a, (run Net.step m [.deliver .b 0, .read .b 1, .syn .b 0 false, .deliver .a 0]).map
        fun n => ((n.side .a).ch.txWin, (n.side .a).ch.chan, (n.side .b).ch.chan))) =
      some ([.data 1 1 [7] 1], some ([], true, true)) := by decide +kernel
  obtain ⟨m, hrun₁, hm⟩ := Option.map_eq_some_iff.mp hfirst
  obtain ⟨hflight, hrest⟩ := Prod.mk.inj hm
  obtain ⟨n, hrun₂, hn⟩ := Option.map_eq_some_iff.mp hrest
  simp only [Prod.mk.injEq] at hn
  obtain ⟨hwin, ha, hb⟩ := hn
  have hsent : .data 1 1 [7] 1 ∈ m.flight .a := by rw [hflight]; exact List.mem_singleton_self _
  refine ⟨m, n, hrun₁, hrun₂, hsent, hwin, ?_⟩
  refine (forgotten_consumed _ (fun _ => by decide) _ _ m n hrun₁ hrun₂ (by decide +kernel) ?_ .a 1 1 [7] 1
    hsent (by simp [hwin])).1
  intro p
  cases p with
  | a => exact ha
  | b => exact hb

/-- Packet 1 is read, but no ack of it reaches the sender. -/
def unreported : List Event := [.write .a [7], .writeNext .a, .deliver .b 0, .read .b 1]

def unreportedNet : Net := (run Net.step (Net.init fun _ => 4096) unreported).getD (Net.init fun _ => 4096)

theorem run_unreported : run Net.step (Net.init fun _ => 4096) unreported = some unreportedNet := by
  have hsome : (run Net.step (Net.init fun _ => 4096) unreported).isSome = true := by decide +kernel
  exact (Option.getD_of_ne_none (Option.isSome_iff_ne_none.mp hsome) _).symm

/-- The next 32769 writes find the window full. -/
theorem run_unreported_stalled : run Net.step unreportedNet (stalledWrites 32769) =
    some (unreportedNet.put .a ((unreportedNet.side .a).stalled 32769) []) := by
  have hnext : (unreportedNet.side .a).ch.nextTxSeq = seqOf 1 := by decide +kernel
  have hlimit : (unreportedNet.side .a).ch.lastRxAck.rxWinStart + (unreportedNet.side .a).ch.txWinSize =
      seqOf 2 := by decide +kernel
  apply run_stalledWrites (by decide +kernel) (by decide +kernel)
  intro i hi
  rw [hnext, hlimit, ← SeqNum.seqOf_add, SeqNum.lt_seqOf ⟨by omega, by omega⟩, decide_eq_false_iff_not]
  omega

/-- Packet 32771 is sent, since its number has passed `can_send` around the circle. A fresh ack that
reports the window start 2 makes the sender forget it, and the receiver never had it. -/
theorem forgotten_unread : ∃ n m, run Net.step (Net.init fun _ => 4096)
      (unreported ++ stalledWrites 32769 ++ [.write .a [9], .writeNext .a]) = some m ∧
    run Net.step m [.syn .b 0 false, .deliver .a 0] = some n ∧
    Guarded Net.step (fun n e => YoungData n e ∧ YoungStart n e) (Net.init fun _ => 4096)
      (unreported ++ stalledWrites 32769 ++ [.write .a [9], .writeNext .a] ++ [.syn .b 0 false, .deliver .a 0]) ∧
    n.Open ∧ .data 1 (seqOf 32771) [9] 32771 ∈ m.flight .a ∧ (n.side .a).ch.txWin = [] ∧
    (n.side .b).ch.rxAckPack.rxWinStartIdx = 2 := by
  have hlast : (run Net.step (unreportedNet.put .a ((unreportedNet.side .a).stalled 32769) [])
        [.write .a [9], .writeNext .a]).map
      (fun m => (m.flight .a, (run Net.step m [.syn .b 0 false, .deliver .a 0]).map
        fun n => ((n.side .a).ch.txWin, (n.side .a).ch.chan, (n.side .b).ch.chan,
          (n.side .b).ch.rxAckPack.rxWinStartIdx))) =
      some ([.data 1 (seqOf 32771) [9] 32771], some ([], true, true, 2)) := by decide +kernel
  have hyoung : Guarded Net.step (fun n e => YoungData n e ∧ YoungStart n e)
      (unreportedNet.put .a ((unreportedNet.side .a).stalled 32769) [])
      [.write .a [9], .writeNext .a, .syn .b 0 false, .deliver .a 0] := by decide +kernel
  obtain ⟨m, hrun₁, hm⟩ := Option.map_eq_some_iff.mp hlast
  obtain ⟨hflight, hrest⟩ := Prod.mk.inj hm
  obtain ⟨n, hrun₂, hn⟩ := Option.map_eq_some_iff.mp hrest
  simp only [Prod.mk.injEq] at hn
  obtain ⟨hwin, ha, hb, hstart⟩ := hn
  refine ⟨n, m,
    run_append_of (run_append_of run_unreported run_unreported_stalled) hrun₁, hrun₂, ?_, ?_, ?_, hwin, hstart⟩
  · rw [List.append_assoc (unreported ++ stalledWrites 32769)]
    exact ((show Guarded Net.step _ _ unreported by decide +kernel).append_of run_unreported
      (guarded_stalledWrites _ _ fun _ e he => by obtain rfl | rfl | rfl := he <;> exact ⟨trivial, trivial⟩)).append_of
        (run_append_of run_unreported run_unreported_stalled) hyoung
  · intro p
    cases p with
    | a => exact ha
    | b => exact hb
  · rw [hflight]
    exact List.mem_singleton_self _

end Tornet.Udt
