import Tornet.Udt.Delivery

/-! Stuck transfers: which losses leave nobody who would ask for the packet again, and
that without them an idle connection has delivered everything. -/
namespace Tornet.Udt
open Library Runs

/-- A copy of the data packet with count `idx` is among the datagrams. -/
def Carries (idx : Nat) (wire : List Packet) : Prop :=
  ∃ w seq payload, Packet.data w seq payload idx ∈ wire

/-- The receiver knows that the packet with count `idx` is missing. -/
def Channel.Misses (c : Channel) (idx : Nat) : Prop :=
  c.rxAckPack.rxWinStartIdx ≤ idx ∧ idx ≤ c.rxAckPack.rxWinEndIdx ∧ ∀ d ∈ c.rxWin, d.idx ≠ idx

/-- No loss goes unnoticed: no `write` gives up; of a data packet beyond `rx_win_end` a copy
or a later packet stays on the wire; a copy of a packet known to be missing is lost, or
the syn timer stopped, only where the timer runs on or another copy is on its way. -/
def LossNoticed (n : Net) : Event → Prop
  | .writeTimeout _ => False
  | .drop p i => ∀ w seq payload idx, (n.flight p.other)[i]? = some (.data w seq payload idx) →
    ((n.side p).ch.rxAckPack.rxWinEndIdx < idx →
      ∃ later, idx ≤ later ∧ Carries later ((n.flight p.other).eraseIdx i)) ∧
    ((n.side p).ch.Misses idx →
      (n.side p).ch.synTask = true ∨ Carries idx ((n.flight p.other).eraseIdx i))
  | .syn p _ _ => (n.side p).ch.mStopSynTimer = true →
    ∀ idx, (n.side p).ch.Misses idx → Carries idx (n.flight p.other)
  | _ => True

theorem carries_iff {idx : Nat} {wire : List Packet} : Carries idx wire ↔
    ∃ pkt ∈ wire, (match pkt with | .data _ _ _ i => i = idx | _ => False) := by
  constructor
  · rintro ⟨w, seq, payload, hm⟩
    exact ⟨_, hm, rfl⟩
  · rintro ⟨pkt, hm, h⟩
    cases pkt with
    | data w seq payload i => exact ⟨w, seq, payload, h ▸ hm⟩
    | ack | nack | close => exact h.elim

theorem carries_later_iff {idx : Nat} {wire : List Packet} :
    (∃ later, idx ≤ later ∧ Carries later wire) ↔
      ∃ pkt ∈ wire, (match pkt with | .data _ _ _ i => idx ≤ i | _ => False) := by
  constructor
  · rintro ⟨later, hle, w, seq, payload, hm⟩
    exact ⟨_, hm, hle⟩
  · rintro ⟨pkt, hm, h⟩
    cases pkt with
    | data w seq payload i => exact ⟨i, h, w, seq, payload, hm⟩
    | ack | nack | close => exact h.elim

instance (idx : Nat) (wire : List Packet) : Decidable (Carries idx wire) :=
  have : ∀ pkt : Packet, Decidable (match pkt with | .data _ _ _ i => i = idx | _ => False)
    | .data _ _ _ i => inferInstanceAs (Decidable (i = idx))
    | .ack _ | .nack _ | .close => isFalse id
  decidable_of_iff _ carries_iff.symm

instance (idx : Nat) (wire : List Packet) : Decidable (∃ later, idx ≤ later ∧ Carries later wire) :=
  have : ∀ pkt : Packet, Decidable (match pkt with | .data _ _ _ i => idx ≤ i | _ => False)
    | .data _ _ _ i => inferInstanceAs (Decidable (idx ≤ i))
    | .ack _ | .nack _ | .close => isFalse id
  decidable_of_iff _ carries_later_iff.symm

instance (c : Channel) (idx : Nat) : Decidable (c.Misses idx) :=
  inferInstanceAs (Decidable (_ ∧ _ ∧ _))

instance (n : Net) : (e : Event) → Decidable (LossNoticed n e)
  | .writeTimeout _ => isFalse id
  | .drop p i =>
    match h : (n.flight p.other)[i]? with
    | some (.data _ _ _ idx) =>
      decidable_of_iff (((n.side p).ch.rxAckPack.rxWinEndIdx < idx →
          ∃ later, idx ≤ later ∧ Carries later ((n.flight p.other).eraseIdx i)) ∧
        ((n.side p).ch.Misses idx →
          (n.side p).ch.synTask = true ∨ Carries idx ((n.flight p.other).eraseIdx i)))
        ⟨fun hk _ _ _ _ hd => by cases h.symm.trans hd; exact hk, fun hk => hk _ _ _ _ h⟩
    | some (.ack _) | some (.nack _) | some .close | none =>
      isTrue fun _ _ _ _ hd => nomatch h.symm.trans hd
  | .syn p _ _ => decidable_of_iff ((n.side p).ch.mStopSynTimer = true →
      ∀ idx ≤ (n.side p).ch.rxAckPack.rxWinEndIdx, (n.side p).ch.Misses idx → Carries idx (n.flight p.other))
    (imp_congr_right fun _ => ⟨fun h idx hi => h idx hi.2.1 hi, fun h idx _ hi => h idx hi⟩)
  | .write .. | .writeNext _ | .writeWake _ | .read .. | .readWake _ | .retransmit _ | .close _
  | .closeTask _ | .deliver .. | .dup .. => isTrue trivial

def Side.highestSent (s : Side) : SeqNum :=
  match s.writer with
  | .blocked .. => s.ch.nextTxSeq - 1
  | _ => s.ch.nextTxSeq

/-- Open at both ends, nothing on the wire, no retransmission and no timer pending. -/
def Quiescent (n : Net) : Prop := ∀ p, (n.side p).ch.chan = true ∧ n.flight p = [] ∧
  (n.side p).ch.retranTask = false ∧ (n.side p).ch.synTask = false

instance (n : Net) : Decidable (Quiescent n) :=
  decidable_of_iff (((n.side .a).ch.chan = true ∧ n.flight .a = [] ∧ (n.side .a).ch.retranTask = false ∧
      (n.side .a).ch.synTask = false) ∧ (n.side .b).ch.chan = true ∧ n.flight .b = [] ∧
      (n.side .b).ch.retranTask = false ∧ (n.side .b).ch.synTask = false)
    ⟨fun h p => by cases p <;> simp [h], fun h => ⟨h .a, h .b⟩⟩

/-- Whatever the receiver `c` still lacks of a stream sent up to `top` is on the wire, or
its timer keeps asking. -/
structure EarOk (c : Channel) (top : Nat) (wire : List Packet) : Prop where
  timer : c.synTimerRunning = true → c.synTask = true
  tail : c.rxAckPack.rxWinEndIdx < top → Carries top wire
  gap : ∀ x, c.Misses x → c.synTask = true ∨ Carries x wire

/-- The receiving half and its timer are unchanged, but for packets read. -/
structure SameEar (c c' : Channel) : Prop where
  timer : c'.synTimerRunning = c.synTimerRunning
  task : c'.synTask = c.synTask
  endIdx : c'.rxAckPack.rxWinEndIdx = c.rxAckPack.rxWinEndIdx
  misses : ∀ x, c'.Misses x → c.Misses x

variable {c c' : Channel} {top top' : Nat} {wire wire' sent : List Packet}

theorem Carries.mono {idx : Nat} (h : Carries idx wire) (hs : ∀ pkt ∈ wire, pkt ∈ wire') :
    Carries idx wire' := by
  obtain ⟨w, seq, payload, hm⟩ := h
  exact ⟨w, seq, payload, hs _ hm⟩

theorem Carries.append_left {idx : Nat} (h : Carries idx wire) : Carries idx (wire ++ sent) :=
  h.mono fun _ => List.mem_append_left _

theorem Carries.append_right {idx : Nat} (h : Carries idx sent) : Carries idx (wire ++ sent) :=
  h.mono fun _ => List.mem_append_right _

/-- Taking another datagram off the wire keeps the copy. -/
theorem Carries.eraseIdx {idx i : Nat} (h : Carries idx wire)
    (hne : ∀ w seq payload, wire[i]? ≠ some (.data w seq payload idx)) : Carries idx (wire.eraseIdx i) := by
  obtain ⟨w, seq, payload, hm⟩ := h
  obtain ⟨j, hj⟩ := List.mem_iff_getElem?.mp hm
  refine ⟨w, seq, payload, List.mem_eraseIdx_iff_getElem?.mpr ⟨j, ?_, hj⟩⟩
  rintro rfl
  exact hne w seq payload hj

theorem EarOk.send (h : EarOk c top wire) (ht : top' = top ∨ Carries top' sent) :
    EarOk c top' (wire ++ sent) where
  timer := h.timer
  tail hlt := by
    rcases ht with rfl | ht
    · exact (h.tail hlt).append_left
    · exact ht.append_right
  gap x hx := (h.gap x hx).imp_right fun hc => hc.append_left

theorem EarOk.same (h : EarOk c top wire) (hs : SameEar c c') : EarOk c' top wire where
  timer := by
    rw [hs.timer, hs.task]
    exact h.timer
  tail := by
    rw [hs.endIdx]
    exact h.tail
  gap x hx := by
    rw [hs.task]
    exact h.gap x (hs.misses x hx)

/-- A datagram without data leaves the wire. -/
theorem EarOk.eraseIdx {i : Nat} (h : EarOk c top wire)
    (hne : ∀ w seq payload idx, wire[i]? ≠ some (.data w seq payload idx)) :
    EarOk c top (wire.eraseIdx i) where
  timer := h.timer
  tail hlt := (h.tail hlt).eraseIdx fun w seq payload => hne w seq payload top
  gap x hx := (h.gap x hx).imp_right fun hc => hc.eraseIdx fun w seq payload => hne w seq payload x

theorem SameEar.of_sameRx (h : Channel.SameRx c c') (ht : c'.synTimerRunning = c.synTimerRunning)
    (hk : c'.synTask = c.synTask) : SameEar c c' := by
  obtain ⟨seq, now, hack⟩ := h.ack
  refine ⟨ht, hk, by rw [hack], fun x hx => ?_⟩
  rw [Channel.Misses, hack, h.rxWin] at hx
  exact hx

namespace Channel

private theorem retransmit_timer (c : Channel) : (retransmit c).synTimerRunning = c.synTimerRunning ∧
    (retransmit c).synTask = c.synTask := by
  obtain ⟨_, _, h⟩ := retransmit_eq c
  rw [h]
  exact ⟨rfl, rfl⟩

private theorem handleAck_ear (ap : AckPacket) (c : Channel) : SameEar c (handleAck ap c).ch := by
  refine .of_sameRx (handleAck_frame ap c).2.1 ?_ ?_ <;>
  · obtain ⟨_, _, h⟩ := retransmit_eq { c with decOnNack := true, txMissList := ap.missedSeq }
    rw [handleAck]
    simp only [h]
    split_ifs <;> rfl

private theorem handleNack_ear (np : NackPacket) (c : Channel) : SameEar c (handleNack np c).ch := by
  refine .of_sameRx (handleNack_frame np c).2.1 ?_ ?_ <;>
  · rw [handleNack]
    simp only [retransmit_timer]
    split_ifs <;> rfl

private theorem retransmitStep_ear (c : Channel) : SameEar c (retransmitStep c).ch := by
  refine .of_sameRx (retransmitStep_frame c).2.2 ?_ ?_ <;>
  · rw [retransmitStep]
    simp only
    split
    · rfl
    split
    · rfl
    split_ifs <;> rfl

private theorem startSynTimer_synTask {c : Channel} (h : c.synTimerRunning = true → c.synTask = true) :
    (startSynTimer c).synTask = true := by
  rw [startSynTimer]
  split_ifs with hr
  · exact h hr
  · rfl

private theorem handleData_synTask {c : Channel} (h : c.synTimerRunning = true → c.synTask = true)
    (dp : DataPacket) : (handleData dp c).ch.synTask = true := by
  obtain ⟨ack, win, hch, -⟩ := storeData_frame dp (advanceTx dp.rxWinStart (startSynTimer c))
  rw [handleData, hch]
  exact startSynTimer_synTask h

end Channel

variable {n n' : Net} {r : Peer} {s' : Side}

/-- As long as both ends are open, nothing is lacking without somebody who asks. -/
def AllAttended (n : Net) : Prop := (∀ p, (n.side p).ch.chan = true) →
  ∀ p, EarOk (n.side p.other).ch (n.side p).top (n.flight p)

/-- Endpoint `r` acts; `left` is what it leaves on the wire of the other one. -/
theorem AllAttended.act (h : AllAttended n) (hchan : s'.ch.chan = true → (n.side r).ch.chan = true)
    (htx : (∀ p, (n.side p).ch.chan = true) → s'.top = (n.side r).top ∨ Carries s'.top sent)
    {left : List Packet} (hrx : (∀ p, (n.side p).ch.chan = true) → s'.ch.chan = true →
      EarOk s'.ch (n.side r.other).top left) :
    AllAttended { n.put r s' sent with
      flight := Function.update (n.put r s' sent).flight r.other left } := by
  intro hopen
  have hne := r.other_ne
  have hself : s'.ch.chan = true := by simpa only [Net.put_side] using hopen r
  have hall : ∀ p, (n.side p).ch.chan = true := by
    intro p
    by_cases hp : p = r
    · subst hp
      exact hchan hself
    · have := hopen p
      simpa only [Net.put, Function.update_of_ne hp] using this
  intro p
  by_cases hp : p = r
  · subst hp
    simp only [Net.put, Function.update_self, Function.update_of_ne hne, Function.update_of_ne hne.symm]
    exact (h hall p).send (htx hall)
  · obtain rfl : p = r.other := by cases p <;> cases r <;> first | rfl | exact absurd rfl hp
    simp only [Net.put, Function.update_self, Function.update_of_ne hne, Peer.other_other]
    exact hrx hall hself

theorem AllAttended.put (h : AllAttended n) (hchan : s'.ch.chan = true → (n.side r).ch.chan = true)
    (htx : (∀ p, (n.side p).ch.chan = true) → s'.top = (n.side r).top ∨ Carries s'.top sent)
    (hrx : (∀ p, (n.side p).ch.chan = true) → s'.ch.chan = true →
      EarOk s'.ch (n.side r.other).top (n.flight r.other)) : AllAttended (n.put r s' sent) := by
  have := h.act hchan htx hrx
  have hput : Function.update (n.put r s' sent).flight r.other (n.flight r.other) = (n.put r s' sent).flight := by
    rw [Function.update_eq_self_iff, Net.put_flight_other]
  rwa [hput] at this

/-- The receiving role of `r` in the state before. -/
theorem AllAttended.ear (h : AllAttended n) (hall : ∀ p, (n.side p).ch.chan = true) :
    EarOk (n.side r).ch (n.side r.other).top (n.flight r.other) := by
  have := h hall r.other
  rwa [Peer.other_other] at this

/-- An arriving data packet moves `rx_win_end` up to its count. -/
theorem Inv.endIdx_data {w seq : SeqNum} {payload : List UInt8} {idx i : Nat} (h : Inv n)
    (hc : (n.side r).ch.chan = true) (hi : (n.flight r.other)[i]? = some (.data w seq payload idx))
    (hy : YoungData n (.deliver r i)) :
    ((n.side r).ch.onRecv (.data w seq payload idx)).ch.rxAckPack.rxWinEndIdx =
      max (n.side r).ch.rxAckPack.rxWinEndIdx idx := by
  obtain ⟨lost, hl⟩ := h r.other
  have hyoung := hy w seq payload idx hi
  have hsmall := hl.rx_other.small
  set dp : DataPacket := { rxWinStart := w, seq := seq, data := payload, idx := idx } with hdp
  have hgen : Genuine (n.side r.other).chunks (n.side r.other).top (n.side r).ch.rxAckPack.rxWinStartIdx
      (n.side r).ch.rxAckPack.rxWinSize.toNat lost dp.seq dp.data dp.idx := by
    have := hl.data _ (List.mem_of_getElem? hi)
    rwa [Peer.other_other] at this
  have hst := (hl.rx_other.placed hc hgen (by simp only [hdp]; omega)).stored.endIdx
  simp only [Channel.advanceTx_rxAckPack, Channel.startSynTimer_rxAckPack] at hst
  exact hst

/-- Sending the packet of a number just taken, or waiting with it. -/
theorem trySend_top {s : Side} {dp : DataPacket} {rest : List UInt8} (hc : s.ch.chan = true)
    (hidx : dp.idx = s.chunks.length) : (s.trySend dp rest).1.top = s.chunks.length - 1 ∨
      Carries (s.trySend dp rest).1.top (s.trySend dp rest).2 := by
  cases hsend : s.ch.canSend with
  | false =>
    rw [Side.trySend, if_neg (by simp [hsend])]
    exact .inl rfl
  | true =>
    have hsent : (s.trySend dp rest).2 = [Channel.dataPacket dp] := by
      simp only [Side.trySend, hsend, if_true, Channel.sendPacket, hc]
    have htop : (s.trySend dp rest).1.top = s.chunks.length := by
      simp only [Side.trySend, hsend, if_true, hc]
      exact top_next rfl
    rw [hsent, htop, ← hidx]
    exact .inr ⟨dp.rxWinStart, dp.seq, dp.data, List.mem_singleton_self _⟩

private theorem trySend_ear (s : Side) (dp : DataPacket) (rest : List UInt8) :
    SameEar s.ch (s.trySend dp rest).1.ch ∧ (s.trySend dp rest).1.ch.chan = s.ch.chan := by
  rw [Side.trySend]
  split_ifs <;> exact ⟨.of_sameRx (.of_eq rfl rfl rfl) rfl rfl, rfl⟩

private theorem readMore_ear {s : Side} {chunks : List (List UInt8)} {lost : Option Nat} {passed : List UInt8}
    (h : RxOk s chunks top lost passed) (hc : s.ch.chan = true) (len : Nat) (got : List UInt8) :
    SameEar s.ch (s.readMore len got).ch := by
  obtain ⟨pre, hdata, -⟩ := h.stream hc
  have hread := Channel.readLoop_spec _ len (h.window hc) h.pos hdata
  have hch : (s.readMore len got).ch = { s.ch with
      rxWin := (Channel.readLoop s.ch.rxAckPack s.ch.rxWin len).2.2.1
      rxAckPack := (Channel.readLoop s.ch.rxAckPack s.ch.rxWin len).2.2.2 } := by
    rw [Side.readMore]
    simp only
    split_ifs <;> rfl
  have hend := congrArg AckPacket.rxWinEndIdx hread.frame
  simp only at hend
  rw [hch]
  refine ⟨rfl, rfl, hend, fun x hx => ⟨hread.startLe.trans hx.1, hx.2.1.trans (Nat.le_of_eq hend),
    fun d hd hdx => ?_⟩⟩
  -- a packet at `x` is either read, and `x` is before the new start, or still there
  rcases hread.gone d hd with hlt | ⟨e, he, hee⟩
  · have := hx.1
    simp only at this
    omega
  · exact hx.2.2 e he (hee.trans hdx)

/-- The timer ticks: it goes on, or it stops where every missing packet is on its way. -/
theorem EarOk.onSyn (h : EarOk c top wire) {now : UInt64} {expired : Bool}
    (hstop : c.mStopSynTimer = true → ∀ x, c.Misses x → Carries x wire)
    (hopen : (Channel.onSyn now expired c).ch.chan = true) : EarOk (Channel.onSyn now expired c).ch top wire := by
  cases expired with
  | true => exact absurd hopen (by simp [(Channel.onSyn_expired_frame now c).2.1])
  | false =>
    obtain ⟨-, -, hrx⟩ := Channel.onSyn_alive_frame now c
    obtain ⟨seq, tm, hack⟩ := hrx.ack
    have hmiss : ∀ x, (Channel.onSyn now false c).ch.Misses x → c.Misses x := fun x hx => by
      rw [Channel.Misses, hack, hrx.rxWin] at hx
      exact hx
    have hc : c.chan = true := hrx.chan ▸ hopen
    have htail : (Channel.onSyn now false c).ch.rxAckPack.rxWinEndIdx < top → Carries top wire := by
      rw [hack]
      exact h.tail
    cases hs : c.mStopSynTimer with
    | true =>
      have hrun : (Channel.onSyn now false c).ch.synTimerRunning = false := by
        simp [Channel.onSyn, Channel.sendAck, hc, hs]
      exact ⟨fun ht => absurd ht (by simp [hrun]), htail, fun x hx => .inr (hstop hs x (hmiss x hx))⟩
    | false =>
      have htask : (Channel.onSyn now false c).ch.synTask = true := by
        simp [Channel.onSyn, Channel.sendAck, hc, hs]
      exact ⟨fun _ => htask, htail, fun _ _ => .inl htask⟩

theorem AllAttended.onRecv (h : AllAttended n) (hinv : Inv n) {pkt : Packet} {i : Nat}
    (hc : (n.side r).ch.chan = true) (hp : pkt ≠ .close) (hi : (n.flight r.other)[i]? = some pkt)
    (hy : YoungData n (.deliver r i)) :
    AllAttended (n.deliver r pkt ((n.flight r.other).eraseIdx i)) := by
  rw [deliver_handle hc hp]
  refine h.act (fun _ => hc) (fun _ => .inl (Side.top_after _ _)) fun hall _ => ?_
  have hear := h.ear (r := r) hall
  cases pkt with
  | data w seq payload idx =>
    have htask := Channel.handleData_synTask hear.timer
      { rxWinStart := w, seq := seq, data := payload, idx := idx }
    refine ⟨fun _ => htask, fun hlt => ?_, fun _ _ => .inl htask⟩
    -- beyond the packet that arrives, the last one is still on the wire
    have hend := hinv.endIdx_data hc hi hy
    simp only [Side.after, hend] at hlt
    refine (hear.tail (by omega)).eraseIdx fun w' seq' payload' h' => ?_
    rw [hi] at h'
    cases h'
    omega
  | ack ap =>
    have hwire := hear.eraseIdx (i := i) (fun w seq payload idx h' => by rw [hi] at h'; cases h')
    simp only [Side.after, Channel.onRecv]
    split
    · exact hwire.same (Channel.handleAck_ear ap _)
    · exact hwire.same (.of_sameRx (.of_eq rfl rfl rfl) rfl rfl)
    · exact hwire
  | nack np =>
    have hwire := hear.eraseIdx (i := i) (fun w seq payload idx h' => by rw [hi] at h'; cases h')
    exact hwire.same (Channel.handleNack_ear np _)
  | close => exact absurd rfl hp

theorem AllAttended.deliver (h : AllAttended n) (hinv : Inv n) {pkt : Packet} {i : Nat}
    (hi : (n.flight r.other)[i]? = some pkt) (hy : YoungData n (.deliver r i)) :
    AllAttended (n.deliver r pkt ((n.flight r.other).eraseIdx i)) := by
  cases hc : (n.side r).ch.chan with
  | false =>
    simp only [Net.deliver, hc, Bool.false_eq_true, if_false]
    exact fun hopen => absurd (hopen r) (by simp [hc])
  | true =>
    by_cases hp : pkt = .close
    · subst hp
      simp only [Net.deliver, hc, if_true]
      rw [Net.put_offWire]
      apply h.act
      · exact fun _ => hc
      · exact fun _ => .inl rfl
      · exact fun hall _ => (h.ear hall).eraseIdx fun w seq payload idx h' => by rw [hi] at h'; cases h'
    · exact h.onRecv hinv hc hp hi hy

/-- Only the wire of `q` changes. -/
theorem AllAttended.rewire (h : AllAttended n) {q : Peer} {left : List Packet}
    (hrx : (∀ p, (n.side p).ch.chan = true) → EarOk (n.side q.other).ch (n.side q).top left) :
    AllAttended { n with flight := Function.update n.flight q left } := by
  intro hopen p
  by_cases hp : p = q
  · subst hp
    simp only [Function.update_self]
    exact hrx hopen
  · simp only [Function.update_of_ne hp]
    exact h hopen p

theorem AllAttended.drop (h : AllAttended n) (hinv : Inv n) {i : Nat}
    (hk : LossNoticed n (.drop r i)) :
    AllAttended { n with flight := Function.update n.flight r.other ((n.flight r.other).eraseIdx i) } := by
  refine h.rewire fun hall => ?_
  rw [Peer.other_other]
  have hear := h.ear (r := r) hall
  by_cases hdata : ∃ w seq payload idx, (n.flight r.other)[i]? = some (.data w seq payload idx)
  · obtain ⟨w, seq, payload, idx, hi⟩ := hdata
    obtain ⟨htail, hgap⟩ := hk w seq payload idx hi
    refine ⟨hear.timer, fun hlt => ?_, fun x hx => ?_⟩
    · by_cases htop : idx = (n.side r.other).top
      · obtain ⟨later, hle, hcar⟩ := htail (htop ▸ hlt)
        obtain ⟨w', seq', payload', hm⟩ := hcar
        obtain ⟨lost, hl⟩ := hinv r.other
        have hgen : later ≤ (n.side r.other).top := (hl.data _ (List.mem_of_mem_eraseIdx hm)).le
        obtain rfl : later = (n.side r.other).top := by omega
        exact ⟨w', seq', payload', hm⟩
      · exact (hear.tail hlt).eraseIdx fun _ _ _ h' => htop (by rw [hi] at h'; cases h'; rfl)
    · by_cases hxi : idx = x
      · exact hxi ▸ hgap (hxi ▸ hx)
      · exact (hear.gap x hx).imp_right fun hcar => hcar.eraseIdx fun _ _ _ h' =>
          hxi (by rw [hi] at h'; cases h'; rfl)
  · exact hear.eraseIdx fun w seq payload idx h' => hdata ⟨w, seq, payload, idx, h'⟩

theorem AllAttended.read (h : AllAttended n) (hinv : Inv n) (len : Nat) (got : List UInt8) :
    AllAttended (n.put r ((n.side r).readMore len got) []) := by
  obtain ⟨htop, hchan⟩ := readMore_rest (n.side r) len got
  obtain ⟨lost, hl⟩ := hinv r.other
  exact h.put (fun hc => hchan ▸ hc) (fun _ => .inl htop) fun hall _ =>
    (h.ear hall).same (readMore_ear hl.rx_other (hall r) len got)

theorem AllAttended.writeNext (h : AllAttended n) (hinv : Inv n) {rest : List UInt8}
    (hrun : (n.side r).writer = .running rest) :
    AllAttended (n.put r ((n.side r).writeNext rest).1 ((n.side r).writeNext rest).2) := by
  obtain ⟨lost, hl⟩ := hinv r
  set s : Side := { n.side r with
    ch := ((n.side r).ch.takePacket (rest.take maxPayload)).1
    chunks := (n.side r).chunks ++ [rest.take maxPayload] } with hs
  have hnext : (n.side r).writeNext rest =
      s.trySend ((n.side r).ch.takePacket (rest.take maxPayload)).2 (rest.drop maxPayload) := rfl
  have hlen : s.chunks.length = (n.side r).ch.nextTxIdx + 1 := by
    rw [hs, List.length_append, hl.tx.nextLen]
    rfl
  have htop : (n.side r).top = s.chunks.length - 1 := by
    rw [Side.top, hrun, hlen, hl.tx.nextLen]
    rfl
  obtain ⟨hear, hchan⟩ := trySend_ear s ((n.side r).ch.takePacket (rest.take maxPayload)).2
    (rest.drop maxPayload)
  have htake : SameEar (n.side r).ch s.ch := .of_sameRx (.of_eq rfl rfl rfl) rfl rfl
  rw [hnext]
  refine h.put (fun hc => (hchan ▸ hc :)) (fun hall => ?_) fun hall _ => ((h.ear hall).same htake).same hear
  rw [htop]
  exact trySend_top (hall r) hlen.symm

/-- A handler that keeps the receiving role, or closes the channel. -/
theorem AllAttended.handle (h : AllAttended n) {o : Outcome}
    (hk : Channel.KeepsTx (n.side r).ch o.ch)
    (hrx : o.ch.chan = true → EarOk (n.side r).ch (n.side r.other).top (n.flight r.other) →
      EarOk o.ch (n.side r.other).top (n.flight r.other)) : AllAttended (n.handle r o) :=
  h.put hk.chan (fun _ => .inl (Side.top_after _ _)) fun hall hc => hrx hc (h.ear hall)

theorem AllAttended.write {p : Peer} {bytes : List UInt8} (h : AllAttended n) (hidle : (n.side p).writer = .idle) :
    AllAttended (n.put p ((n.side p).startWrite bytes) []) := by
  apply h.put
  · exact id
  · refine fun _ => .inl ?_
    rw [top_next rfl, Side.top, hidle]
    rfl
  · exact fun hall _ => h.ear hall

theorem AllAttended.writeWake {p : Peer} {dp : DataPacket} {rest : List UInt8} (h : AllAttended n) (hinv : Inv n)
    (hb : (n.side p).writer = .blocked dp rest true) (hc : (n.side p).ch.chan = true) :
    AllAttended (n.put p ((n.side p).trySend dp rest).1 ((n.side p).trySend dp rest).2) := by
  obtain ⟨lost, hl⟩ := hinv p
  obtain ⟨hidx, -⟩ := hl.tx.blocked dp rest true hb
  obtain ⟨hear, hchan⟩ := trySend_ear (n.side p) dp rest
  have htop : (n.side p).top = (n.side p).chunks.length - 1 := by rw [Side.top, hb]
  apply h.put
  · exact fun _ => hc
  · rw [htop]
    exact fun _ => trySend_top hc (hidx.trans hl.tx.nextLen.symm)
  · exact fun hall _ => (h.ear hall).same hear

theorem AllAttended.step {e : Event} (h : AllAttended n) (hinv : Inv n) (hy : YoungData n e)
    (hk : LossNoticed n e) (hs : n.step e = some n') : AllAttended n' := by
  cases Net.takes_of_step hs with
  | write _ hidle => exact h.write hidle
  | writeNext _ hrun => exact h.writeNext hinv hrun
  | writeWake _ hb hc => exact h.writeWake hinv hb hc
  | @writeThrow p _ _ _ _ hc => exact fun hopen => absurd (hopen p) (by simpa using hc)
  | writeTimeout => exact absurd hk id
  | read => exact h.read hinv _ _
  | readWake => exact h.read hinv _ _
  | @readThrow p _ _ _ _ hc => exact fun hopen => absurd (hopen p) (by simpa using hc)
  | @syn _ now expired =>
    refine h.handle ?_ fun hc hear => hear.onSyn hk hc
    cases expired with
    | true => exact (Channel.onSyn_expired_frame now _).2.2.2.2.1
    | false => exact (Channel.onSyn_alive_frame now _).1
  | retransmit =>
    exact h.handle (Channel.retransmitStep_frame _).1 fun _ hear => hear.same (Channel.retransmitStep_ear _)
  | close => exact h.handle (Channel.close_frame true _).2.2.2.1 fun h => by cases h
  | @closeTask p => exact fun hopen => absurd (hopen p) (by simp [Side.after, Channel.close])
  | deliver _ hi => exact h.deliver hinv hi hy
  | drop => exact h.drop hinv hk
  | dup =>
    refine h.rewire fun hall => ?_
    rw [Peer.other_other]
    exact (h.ear hall).send (.inl rfl)

theorem AllAttended.init (mwp : Peer → BitVec 16) : AllAttended (Net.init mwp) := by
  refine fun _ p => ⟨fun h => (by cases h), fun h => absurd h (Nat.lt_irrefl 0), fun x hx => ?_⟩
  have h1 : 1 ≤ x := hx.1
  have h2 : x ≤ 0 := hx.2.1
  omega

theorem TxOk.highestSent {s : Side} {start size : Nat} {lost : Option Nat} (h : TxOk s start size lost) :
    s.highestSent = seqOf s.top := by
  have hseq := h.nextSeq
  have hlen := h.nextLen
  unfold Side.highestSent Side.top
  cases hw : s.writer with
  | idle | running => rw [hseq, hlen]
  | blocked dp rest w =>
    obtain ⟨hidx, -, -, hpos⟩ := h.blocked dp rest w hw
    obtain ⟨k, hk⟩ : ∃ k, s.ch.nextTxIdx = k + 1 := ⟨s.ch.nextTxIdx - 1, by omega⟩
    simp only
    rw [hseq, hlen, hk, SeqNum.seqOf_pred, Nat.add_sub_cancel]

/-- In every run in which no loss goes unnoticed, an open connection that has come to
rest has delivered everything that was sent. -/
theorem delivered_of_quiescent (mwp : Peer → BitVec 16) (hm : ∀ p, (mwp p).toNat ≤ 4096)
    (es : List Event) (n : Net) (hrun : run Net.step (Net.init mwp) es = some n)
    (hg : Guarded Net.step (fun n e => YoungData n e ∧ SendsInRange n e ∧ LossNoticed n e)
      (Net.init mwp) es) (hq : Quiescent n) (p : Peer) :
    (n.side p.other).ch.rxAckPack.rxWinEnd = (n.side p).highestSent ∧
      (n.side p.other).ch.rxAckPack.missedSeq = [] := by
  obtain ⟨hinv, hatt⟩ : Inv n ∧ AllAttended n :=
    invariant_of_guarded (fun n => Inv n ∧ AllAttended n)
      (fun s e t h hok hs => ⟨h.1.step hok.1 hok.2.1 hs, h.2.step h.1 hok.1 hok.2.2 hs⟩)
      ⟨Inv.init hm, AllAttended.init mwp⟩ hg hrun
  have hopen : ∀ q, (n.side q).ch.chan = true := fun q => (hq q).1
  have hear := hatt hopen p
  have hempty : ∀ x, ¬ Carries x (n.flight p) := by
    rintro x ⟨w, seq, payload, hm⟩
    rw [(hq p).2.1] at hm
    exact List.not_mem_nil hm
  obtain ⟨lost, hl⟩ := hinv p
  have hwin := hl.rx.window (hopen p.other)
  have hend : (n.side p.other).ch.rxAckPack.rxWinEndIdx = (n.side p).top := by
    have hle := hl.rx.endLe
    have hge : ¬ (n.side p.other).ch.rxAckPack.rxWinEndIdx < (n.side p).top := fun h => hempty _ (hear.tail h)
    omega
  refine ⟨?_, hwin.missed.eq_nil fun x hx => ?_⟩
  · rw [hwin.endSeq, hend, hl.tx.highestSent]
  · rcases hear.gap x hx with htask | hcar
    · exact absurd htask (by simp [(hq p.other).2.2.2])
    · exact hempty x hcar

/-- Packet 2 is lost while 3 is on its way; the nack has it sent again. -/
def resentSecond : List Event :=
  [.write .a [1], .writeNext .a, .deliver .b 0, .read .b 1, .syn .b 0 false, .deliver .a 0,
    .write .a [2], .writeNext .a, .write .a [3], .writeNext .a, .drop .b 1, .deliver .b 1, .deliver .a 0,
    .retransmit .a, .retransmit .a]

theorem delivered_of_quiescent_resent : ∃ n, run Net.step (Net.init fun _ => 4096)
      (resentSecond ++ [.deliver .b 1, .deliver .b 0, .syn .b 0 false, .deliver .a 0]) = some n ∧
    Quiescent n ∧ (n.side .b).ch.rxAckPack.rxWinEnd = (n.side .a).highestSent ∧
    (n.side .b).ch.rxAckPack.missedSeq = [] := by
  have hrest : (run Net.step (Net.init fun _ => 4096)
      (resentSecond ++ [.deliver .b 1, .deliver .b 0, .syn .b 0 false, .deliver .a 0])).any
        (fun n => decide (Quiescent n)) = true := by decide +kernel
  obtain ⟨n, hrun, hq⟩ := (Option.any_eq_true _ _).mp hrest
  have hquiet : Quiescent n := by simpa using hq
  exact ⟨n, hrun, hquiet, delivered_of_quiescent _ (fun _ => by decide) _ n hrun (by decide +kernel) hquiet .a⟩

/-- Two ways to get stuck. The only packet is lost; or the second copy of packet 2 is lost
too, an ack2 stops the timer of the receiver, and its last ack is lost. -/
theorem quiescent_undelivered :
    (run Net.step (Net.init fun _ => 4096) [.write .a [1], .writeNext .a, .drop .b 0]).any
      (fun n => decide (Quiescent n) &&
        decide ((n.side .b).ch.rxAckPack.rxWinEnd ≠ (n.side .a).highestSent)) = true ∧
    (run Net.step (Net.init fun _ => 4096)
        (resentSecond ++ [.drop .b 1, .deliver .b 0, .syn .b 0 false, .drop .a 0])).any
      (fun n => decide (Quiescent n) &&
        decide ((n.side .b).ch.rxAckPack.missedSeq = [(2, 2)])) = true := by
  decide +kernel

end Tornet.Udt
