import Tornet.Udt.Network

/-! The transmit window in 16 bits: what `can_send` compares, and how far the window grows. -/
namespace Tornet.Udt
open Library Runs

def maxGrowing : Nat := 43689

/-- The largest window that every count of numbers within half the number space can be compared with. -/
def halfWindow : Nat := 2 ^ 15 - 2

namespace Channel

/-- The numbers taken from `next_tx_seq` that `last_rx_ack` does not acknowledge. -/
def outstanding (c : Channel) : Nat := (c.nextTxSeq + 1 - c.lastRxAck.rxWinStart).toNat

/-- The two sides of the comparison are less than half the number space apart. -/
def Comparable (c : Channel) : Prop :=
  c.txWinSize.toNat ≤ c.outstanding + halfWindow ∧ c.outstanding ≤ c.txWinSize.toNat + (2 ^ 15 + 1)

/-- `can_send` counts right there, and nowhere else. -/
theorem canSend_iff (c : Channel) : (c.canSend = true ↔ c.outstanding ≤ c.txWinSize.toNat) ↔ c.Comparable := by
  rw [canSend, SeqNum.lt_iff, Comparable, outstanding, halfWindow]
  generalize c.nextTxSeq = next
  generalize c.lastRxAck.rxWinStart = start
  generalize c.txWinSize = size
  constructor
  · intro h
    by_contra hfar
    bv_omega
  · intro h
    constructor
    · intro hcan
      bv_omega
    · intro hle
      bv_omega

theorem growth_lt_iff (w : BitVec 16) : w.toNat * 3 / 2 + 1 < 2 ^ 16 ↔ w.toNat ≤ maxGrowing := by
  rw [maxGrowing]
  omega

theorem grownWindow_le {w remote : BitVec 16} {W : Nat} (hw : w.toNat ≤ W) (hr : remote.toNat ≤ W) (startUp : Bool) :
    (grownWindow startUp w remote).toNat ≤ W := by
  rw [grownWindow]
  simp only
  split_ifs <;> bv_omega

theorem shrunkWindow_le {w : BitVec 16} {W : Nat} (hw : w.toNat ≤ W) (hW : 1 ≤ W) (startUp : Bool) :
    (shrunkWindow startUp w).toNat ≤ W := by
  rw [shrunkWindow]
  split_ifs
  · exact hW
  · rw [BitVec.toNat_ofNat]
    exact (Nat.mod_le _ _).trans (by omega)
  · exact hW
  · rw [BitVec.toNat_ofNat]
    exact (Nat.mod_le _ _).trans (by omega)

/-- The part of a channel that `can_send` looks at. -/
def txPart (c : Channel) : SeqNum × SeqNum × BitVec 16 := (c.nextTxSeq, c.lastRxAck.rxWinStart, c.txWinSize)

private theorem storeData_txPart (dp : DataPacket) (c : Channel) : (storeData dp c).ch.txPart = c.txPart := by
  rw [storeData]
  simp only
  split_ifs <;> rfl

private theorem startSynTimer_txPart (c : Channel) : (startSynTimer c).txPart = c.txPart := by
  rw [startSynTimer]
  split_ifs <;> rfl

private theorem retransmit_txPart (c : Channel) : (retransmit c).txPart = c.txPart := by
  rw [retransmit]
  split_ifs <;> rfl

private theorem retransmitStep_txPart (c : Channel) : c.retransmitStep.ch.txPart = c.txPart := by
  rw [retransmitStep]
  simp only
  split
  · rfl
  · split
    · rfl
    · split_ifs <;> rfl

theorem onSyn_txPart (now : UInt64) (expired : Bool) (c : Channel) : (onSyn now expired c).ch.txPart = c.txPart := by
  rw [onSyn]
  simp only
  split_ifs <;> rfl

end Channel

def Writer.waiting : Writer → Bool
  | .blocked .. => true
  | _ => false

theorem Writer.waiting_wake (b : Bool) (w : Writer) : (w.wake b).waiting = w.waiting := by
  cases b with
  | false => cases w <;> rfl
  | true => cases w <;> rfl

theorem Writer.waiting_next (rest : List UInt8) : (Writer.next rest).waiting = false := by
  rw [Writer.next]
  split_ifs <;> rfl

/-- A writer that waits afterwards waited before, with the same packet. -/
def Writer.Follows (w w' : Writer) : Prop :=
  ∀ dp rest woken, w' = .blocked dp rest woken → ∃ woken', w = .blocked dp rest woken'

theorem Writer.follows_wake (b : Bool) (w : Writer) : w.Follows (w.wake b) := by
  intro dp rest woken h
  cases w with
  | idle => cases b <;> cases h
  | running l => cases b <;> cases h
  | blocked dp' rest' woken' =>
    cases b with
    | false =>
      cases h
      exact ⟨woken, rfl⟩
    | true =>
      cases h
      exact ⟨woken', rfl⟩

theorem Writer.wake_follows (b : Bool) (w : Writer) : (w.wake b).Follows w := by
  intro dp rest woken h
  subst h
  cases b with
  | false => exact ⟨woken, rfl⟩
  | true => exact ⟨true, rfl⟩

theorem Writer.follows_idle (w : Writer) : w.Follows .idle := fun _ _ _ h => by cases h

theorem Writer.follows_next (w : Writer) (rest : List UInt8) : w.Follows (Writer.next rest) := by
  intro dp rest' woken h
  have hno := congrArg Writer.waiting h
  rw [Writer.waiting_next] at hno
  cases hno

def Advertises (size : Nat) (n : Net) : Event → Prop
  | .deliver p i => ∀ ap, (n.flight p.other)[i]? = some (.ack ap) → ap.flags = .ack → ap.rxWinSize.toNat ≤ size
  | _ => True

/-- An ack that is taken for the last one starts less than half the number space behind the number taken last. -/
def Channel.Acknowledges (c : Channel) (ap : AckPacket) : Prop :=
  ap.flags = .ack → SeqNum.ge ap.ackSeq c.lastRxAck.ackSeq = true → (c.nextTxSeq + 1 - ap.rxWinStart).toNat ≤ 2 ^ 15

/-- A number that is taken stays less than half the number space ahead of the window start in the last ack. -/
def NumbersNear (n : Net) : Event → Prop
  | .writeNext p => (n.side p).ch.outstanding < 2 ^ 15
  | .deliver p i => ∀ ap, (n.flight p.other)[i]? = some (.ack ap) → (n.side p).ch.Acknowledges ap
  | _ => True

instance (c : Channel) (ap : AckPacket) : Decidable (c.Acknowledges ap) := inferInstanceAs (Decidable (_ → _ → _))

/-- A condition on the ack that may be there. -/
theorem ack_iff {P : AckPacket → Prop} {x : Option Packet} :
    (∀ pkt ∈ x, match pkt with | .ack ap => P ap | _ => True) ↔ ∀ ap, x = some (.ack ap) → P ap := by
  constructor
  · exact fun h ap hx => h _ hx
  · intro h pkt hx
    cases pkt with
    | ack ap => exact h ap hx
    | data | nack | close => trivial

instance (size : Nat) (n : Net) : (e : Event) → Decidable (Advertises size n e)
  | .deliver p i =>
    have : DecidablePred fun pkt : Packet => match pkt with
        | .ack ap => ap.flags = .ack → ap.rxWinSize.toNat ≤ size
        | _ => True
      | .ack ap => inferInstanceAs (Decidable (ap.flags = .ack → ap.rxWinSize.toNat ≤ size))
      | .data .. | .nack _ | .close => isTrue trivial
    decidable_of_iff _ (ack_iff (x := (n.flight p.other)[i]?))
  | .write .. | .writeNext _ | .writeWake _ | .writeTimeout _ | .read .. | .readWake _ | .syn .. | .retransmit _
  | .close _ | .closeTask _ | .drop .. | .dup .. => isTrue trivial

instance (n : Net) : (e : Event) → Decidable (NumbersNear n e)
  | .writeNext p => inferInstanceAs (Decidable ((n.side p).ch.outstanding < 2 ^ 15))
  | .deliver p i =>
    have : DecidablePred fun pkt : Packet => match pkt with
        | .ack ap => (n.side p).ch.Acknowledges ap
        | _ => True
      | .ack ap => inferInstanceAs (Decidable ((n.side p).ch.Acknowledges ap))
      | .data .. | .nack _ | .close => isTrue trivial
    decidable_of_iff _ (ack_iff (x := (n.flight p.other)[i]?))
  | .write .. | .writeWake _ | .writeTimeout _ | .read .. | .readWake _ | .syn .. | .retransmit _
  | .close _ | .closeTask _ | .drop .. | .dup .. => isTrue trivial

/-! ### The window over whole runs -/

section
variable {c c' : Channel} {s : Side} {W : Nat}

theorem outstanding_eq (h : c'.txPart = c.txPart) : c'.outstanding = c.outstanding := by
  obtain ⟨hnext, hrest⟩ := Prod.mk.inj h
  rw [Channel.outstanding, Channel.outstanding, hnext, (Prod.mk.inj hrest).1]

theorem txWinSize_eq (h : c'.txPart = c.txPart) : c'.txWinSize = c.txWinSize := (Prod.mk.inj (Prod.mk.inj h).2).2

private theorem handleAck_txPart (ap : AckPacket) (c : Channel) : (c.handleAck ap).ch.txPart = (c.nextTxSeq,
    if SeqNum.ge ap.ackSeq c.lastRxAck.ackSeq then ap.rxWinStart else c.lastRxAck.rxWinStart,
    Channel.grownWindow c.startUp c.txWinSize ap.rxWinSize) := by
  rw [Channel.handleAck]
  simp only [Channel.txPart, Channel.advanceTx, Channel.retransmit]
  split_ifs <;> rfl

private theorem handleNack_txPart (np : NackPacket) (c : Channel) : (c.handleNack np).ch.txPart = (c.nextTxSeq,
    c.lastRxAck.rxWinStart, if c.decOnNack then Channel.shrunkWindow c.startUp c.txWinSize else c.txWinSize) := by
  rw [Channel.handleNack]
  simp only [Channel.retransmit_txPart]
  cases hdec : c.decOnNack with
  | true => simp only [Channel.txPart, Channel.advanceTx, hdec, if_true]
  | false => simp only [Channel.txPart, Channel.advanceTx, hdec, Bool.false_eq_true, if_false]

private theorem handleData_txPart (dp : DataPacket) (c : Channel) : (c.handleData dp).ch.txPart = c.txPart := by
  change (Channel.storeData dp (Channel.advanceTx dp.rxWinStart (Channel.startSynTimer c))).ch.txPart = c.txPart
  rw [Channel.storeData_txPart]
  exact Channel.startSynTimer_txPart c

private theorem trySend_txPart (s : Side) (dp : DataPacket) (rest : List UInt8) :
    (s.trySend dp rest).1.ch.txPart = s.ch.txPart := by
  rw [Side.trySend]
  split_ifs <;> rfl

theorem readMore_txPart (s : Side) (len : Nat) (got : List UInt8) : (s.readMore len got).ch.txPart = s.ch.txPart := by
  rw [Side.readMore]
  simp only
  split_ifs <;> rfl

/-- Only a number that is taken and a datagram change what `can_send` looks at. -/
theorem step_txPart {P : Channel → Prop} {n n' : Net} {e : Event}
    (hpart : ∀ {c c' : Channel}, c'.txPart = c.txPart → P c → P c') (h : ∀ q, P (n.side q).ch) (hs : n.step e = some n')
    (htake : ∀ p payload, e = .writeNext p → P ((n.side p).ch.takePacket payload).1)
    (hrecv : ∀ p i pkt, e = .deliver p i → (n.flight p.other)[i]? = some pkt → P ((n.side p).ch.onRecv pkt).ch) :
    ∀ q, P (n'.side q).ch := by
  have put {p : Peer} {s : Side} (hs : s.ch.txPart = (n.side p).ch.txPart) (sent : List Packet) :
      ∀ q, P ((n.put p s sent).side q).ch :=
    Net.forall_put (P := fun s => P s.ch) h (hpart hs (h p)) sent
  cases Net.takes_of_step hs with
  | write =>
    refine put ?_ _
    rfl
  | @writeNext p rest =>
    refine Net.forall_put (P := fun s => P s.ch) h ?_ _
    exact hpart (trySend_txPart _ _ _) (htake p (rest.take maxPayload) rfl)
  | writeWake => exact put (trySend_txPart _ _ _) _
  | writeThrow =>
    refine put ?_ _
    rfl
  | writeTimeout =>
    refine put ?_ _
    rfl
  | read => exact put (readMore_txPart _ _ _) _
  | readWake => exact put (readMore_txPart _ _ _) _
  | readThrow =>
    refine put ?_ _
    rfl
  | syn => exact put (Channel.onSyn_txPart _ _ _) _
  | retransmit => exact put (Channel.retransmitStep_txPart _) _
  | close =>
    refine put ?_ _
    rfl
  | closeTask =>
    refine put ?_ _
    rfl
  | deliver _ hi => exact Net.forall_deliver (P := fun s => P s.ch) h _ (h _) fun _ => hrecv _ _ _ rfl hi
  | drop => exact h
  | dup => exact h

def Channel.Within (W : Nat) (c : Channel) : Prop := c.txWinSize.toNat ≤ max 1 W

theorem Channel.Within.of_txPart (h : c.Within W) (hpart : c'.txPart = c.txPart) : c'.Within W := by
  rw [Channel.Within, txWinSize_eq hpart]
  exact h

theorem Channel.Within.onRecv {pkt : Packet} (h : c.Within W)
    (hsize : ∀ ap, pkt = .ack ap → ap.flags = .ack → ap.rxWinSize.toNat ≤ W) : (c.onRecv pkt).ch.Within W := by
  cases pkt with
  | data w seq payload idx => exact h.of_txPart (handleData_txPart _ c)
  | ack ap =>
    rw [Channel.onRecv]
    split
    · rename_i hflags
      rw [Channel.Within, (Prod.mk.inj (Prod.mk.inj (handleAck_txPart ap c)).2).2]
      exact Channel.grownWindow_le h ((hsize ap rfl hflags).trans (Nat.le_max_right 1 W)) _
    · exact h.of_txPart rfl
    · exact h
  | nack np =>
    rw [Channel.onRecv, Channel.Within, (Prod.mk.inj (Prod.mk.inj (handleNack_txPart np c)).2).2]
    split_ifs
    · exact Channel.shrunkWindow_le h (Nat.le_max_left 1 W) _
    · exact h
  | close => exact h

theorem Channel.Within.step {n n' : Net} {e : Event} (h : ∀ q, (n.side q).ch.Within W) (hok : Advertises W n e)
    (hs : n.step e = some n') : ∀ q, (n'.side q).ch.Within W := by
  apply step_txPart (P := fun c => c.Within W) (fun hpart hc => hc.of_txPart hpart) h hs
  · rintro p payload rfl
    exact h p
  · rintro p i pkt rfl hi
    exact (h p).onRecv fun ap hap => hok ap (hi.trans (congrArg some hap))

/-- The numbers taken since the last ack are less than half the number space. -/
def Channel.Ahead (c : Channel) : Prop := c.outstanding ≤ 2 ^ 15

theorem Channel.Ahead.of_txPart (h : c.Ahead) (hpart : c'.txPart = c.txPart) : c'.Ahead := by
  rw [Channel.Ahead, outstanding_eq hpart]
  exact h

theorem Channel.Ahead.onRecv {pkt : Packet} (h : c.Ahead) (hnear : ∀ ap, pkt = .ack ap → c.Acknowledges ap) :
    (c.onRecv pkt).ch.Ahead := by
  cases pkt with
  | data w seq payload idx => exact h.of_txPart (handleData_txPart _ c)
  | ack ap =>
    rw [Channel.onRecv]
    split
    · rename_i hflags
      obtain ⟨hnext, hrest⟩ := Prod.mk.inj (handleAck_txPart ap c)
      rw [Channel.Ahead, Channel.outstanding, hnext, (Prod.mk.inj hrest).1]
      split_ifs with hge
      · exact hnear ap rfl hflags hge
      · exact h
    · exact h.of_txPart rfl
    · exact h
  | nack np =>
    obtain ⟨hnext, hrest⟩ := Prod.mk.inj (handleNack_txPart np c)
    rw [Channel.onRecv, Channel.Ahead, Channel.outstanding, hnext, (Prod.mk.inj hrest).1]
    exact h
  | close => exact h

theorem Channel.Ahead.takePacket (hnear : c.outstanding < 2 ^ 15) (payload : List UInt8) : (c.takePacket payload).1.Ahead := by
  change (c.nextTxSeq + 1 + 1 - c.lastRxAck.rxWinStart).toNat ≤ 2 ^ 15
  rw [Channel.outstanding] at hnear
  generalize c.lastRxAck.rxWinStart = start at hnear ⊢
  generalize c.nextTxSeq = next at hnear ⊢
  bv_omega

theorem Channel.Ahead.step {n n' : Net} {e : Event} (h : ∀ q, (n.side q).ch.Ahead) (hok : NumbersNear n e)
    (hs : n.step e = some n') : ∀ q, (n'.side q).ch.Ahead := by
  apply step_txPart (P := fun c => c.Ahead) (fun hpart hc => hc.of_txPart hpart) h hs
  · rintro p payload rfl
    exact Channel.Ahead.takePacket hok payload
  · rintro p i pkt rfl hi
    exact (h p).onRecv fun ap hap => hok ap (hi.trans (congrArg some hap))

/-- Of two such sides none is half the number space ahead. -/
theorem Channel.Within.comparable (h : c.Within W) (hahead : c.Ahead) (hW : W ≤ halfWindow) : c.Comparable := by
  rw [Channel.Within] at h
  rw [Channel.Ahead] at hahead
  rw [halfWindow] at hW
  rw [Channel.Comparable, halfWindow]
  omega

end

/-- In every state that a run reaches: `can_send` is true exactly where the numbers that are taken and not acknowledged are at
most `tx_win_size`, unless the two are half the number space apart, and a window up to 43689 grows in 16 bits. Of the runs in
which the acks advertise no more than `W`, in those with `W` below half the number space, and numbers that stay near, the first
is so in every state, and in those with `W` up to 43689 the second. -/
theorem canSend_exact (mwp : Peer → BitVec 16) (es : List Event) (n : Net) (W : Nat)
    (hr : run Net.step (Net.init mwp) es = some n) (hg : Guarded Net.step (Advertises W) (Net.init mwp) es) (p : Peer) :
    (((n.side p).ch.canSend = true ↔ (n.side p).ch.outstanding ≤ (n.side p).ch.txWinSize.toNat) ↔
      (n.side p).ch.Comparable) ∧
    ((n.side p).ch.txWinSize.toNat * 3 / 2 + 1 < 2 ^ 16 ↔ (n.side p).ch.txWinSize.toNat ≤ maxGrowing) ∧
    (W ≤ halfWindow → Guarded Net.step NumbersNear (Net.init mwp) es →
      ((n.side p).ch.canSend = true ↔ (n.side p).ch.outstanding ≤ (n.side p).ch.txWinSize.toNat)) ∧
    (W ≤ maxGrowing → (n.side p).ch.txWinSize.toNat * 3 / 2 + 1 < 2 ^ 16) := by
  have hwithin : ∀ q, (n.side q).ch.Within W :=
    invariant_of_guarded (fun n => ∀ q, (n.side q).ch.Within W) (fun _ _ _ h hok hs => Channel.Within.step h hok hs)
      (fun _ => Nat.le_max_left 1 W) hg hr
  refine ⟨Channel.canSend_iff _, Channel.growth_lt_iff _, fun hW hnear => ?_, fun hW => ?_⟩
  · have hahead : ∀ q, (n.side q).ch.Ahead :=
      invariant_of_guarded (fun n => ∀ q, (n.side q).ch.Ahead) (fun _ _ _ h hok hs => Channel.Ahead.step h hok hs)
        (fun _ => show ((0 : BitVec 16) + 1 - 1).toNat ≤ 2 ^ 15 by decide) hnear hr
    exact (Channel.canSend_iff _).mpr ((hwithin p).comparable (hahead p) hW)
  · have hsize := hwithin p
    rw [Channel.Within] at hsize
    rw [maxGrowing] at hW
    exact (Channel.growth_lt_iff _).mpr (hsize.trans (by rw [maxGrowing]; omega))

/-- A second ack of packet 1 overtakes the first one, the window is filled, and a `write` of one packet more times out. -/
def acknowledged : List Event :=
  [.write .a [1], .writeNext .a, .deliver .b 0, .syn .b 0 false, .read .b 1, .syn .b 0 false, .deliver .a 1, .deliver .a 0,
    .write .a [2], .writeNext .a, .write .a [3], .writeNext .a, .write .a [4], .writeNext .a, .write .a [5], .writeNext .a,
    .write .a [6], .writeNext .a, .writeTimeout .a]

theorem canSend_exact_acknowledged : ∃ n, run Net.step (Net.init fun _ => 4096) acknowledged = some n ∧
    (n.side .a).ch.outstanding = 5 ∧ (n.side .a).ch.txWinSize = 4 ∧ (n.side .a).ch.canSend = false ∧
    (n.side .a).ch.txWinSize.toNat * 3 / 2 + 1 < 2 ^ 16 := by
  have hrun : ∃ n, n ∈ run Net.step (Net.init fun _ => 4096) acknowledged ∧ (n.side .a).ch.outstanding = 5 ∧
      (n.side .a).ch.txWinSize = 4 := by decide +kernel
  obtain ⟨n, hn, hout, hwin⟩ := hrun
  obtain ⟨-, -, hcan, hgrowth⟩ := canSend_exact (fun _ => 4096) acknowledged n 4096 hn (by decide +kernel) .a
  refine ⟨n, hn, hout, hwin, ?_, hgrowth (by decide)⟩
  rw [Bool.eq_false_iff, Ne, hcan (by decide) (by decide +kernel), hout, hwin]
  decide

/-- Acks of a peer that advertises all of 16 bits, during start-up. -/
def openedWide : List Event :=
  [.write .a [1], .writeNext .a, .deliver .b 0] ++ (List.replicate 25 [.syn .b 0 false, .deliver .a 0]).flatten

/-- A sender that has sent nothing can send, with the difference at -1. Of a window of 61445 it cannot send the second packet,
and the next ack grows it beyond 16 bits. -/
theorem canSend_inexact :
    (((Net.init fun _ => 4096).side .a).ch.canSend = true ∧
      ¬ (((Net.init fun _ => 4096).side .a).ch.nextTxSeq - ((Net.init fun _ => 4096).side .a).ch.lastRxAck.rxWinStart).toNat <
        ((Net.init fun _ => 4096).side .a).ch.txWinSize.toNat) ∧
    ∃ n, run Net.step (Net.init fun _ => 65535) openedWide = some n ∧ (n.side .a).ch.canSend = false ∧
      ((n.side .a).ch.nextTxSeq - (n.side .a).ch.lastRxAck.rxWinStart).toNat < (n.side .a).ch.txWinSize.toNat ∧
      2 ^ 16 ≤ (n.side .a).ch.txWinSize.toNat * 3 / 2 + 1 := by
  have hrun : ∃ n, n ∈ run Net.step (Net.init fun _ => 65535) openedWide ∧ (n.side .a).ch.canSend = false ∧
      ((n.side .a).ch.nextTxSeq - (n.side .a).ch.lastRxAck.rxWinStart).toNat < (n.side .a).ch.txWinSize.toNat ∧
      2 ^ 16 ≤ (n.side .a).ch.txWinSize.toNat * 3 / 2 + 1 := by decide +kernel
  obtain ⟨n, hn, hrest⟩ := hrun
  exact ⟨by decide, n, hn, hrest⟩

end Tornet.Udt
