import Tornet.Udt.TxWindow

/-! The numbers of a sender over whole runs: what becomes of the one that a `write` has taken when it throws. -/
namespace Tornet.Udt
open Library Runs

/-- The counts of the packets in `tx_win`. -/
def Channel.held (c : Channel) : List Nat := c.txWin.map fun d => d.idx

/-- A network with the counts that each sender has seen acknowledged: those a datagram has taken out of its `tx_win`. -/
structure Marked where
  net : Net
  acked : Peer → List Nat

def Marked.init (mwp : Peer → BitVec 16) : Marked := ⟨Net.init mwp, fun _ => []⟩

/-- What an event acknowledges, from the network before and after it. -/
def Net.acknowledges (n n' : Net) (p : Peer) : Event → List Nat
  | .deliver q _ => if q = p then (n.side p).ch.held.filter fun i => i ∉ (n'.side p).ch.held else []
  | _ => []

def Marked.step (m : Marked) (e : Event) : Option Marked :=
  (m.net.step e).map fun n => ⟨n, fun p => m.acked p ++ m.net.acknowledges n p e⟩

/-- Every number that was taken is in `tx_win` or was acknowledged. -/
def Marked.Kept (m : Marked) (p : Peer) : Prop :=
  ∀ i ∈ List.range' 1 (m.net.side p).ch.nextTxIdx, i ∈ (m.net.side p).ch.held ∨ i ∈ m.acked p

instance (m : Marked) (p : Peer) : Decidable (m.Kept p) := inferInstanceAs (Decidable (∀ i ∈ List.range' _ _, _))

/-- The event makes the `write` of the endpoint throw: its wait times out, or it wakes up on a closed channel, or it sends on
one. -/
def Throws (n : Net) (p : Peer) : Event → Prop
  | .writeTimeout q => q = p
  | .writeWake q => q = p ∧ (n.side p).ch.chan = false
  | .writeNext q => q = p ∧ (n.side p).ch.chan = false ∧ ((n.side p).ch.takePacket []).1.canSend = true
  | _ => False

/-- The channel takes no number, and adds none to `tx_win`. -/
structure Channel.Sheds (c c' : Channel) : Prop where
  next : c'.nextTxIdx = c.nextTxIdx
  held : ∀ i ∈ c'.held, i ∈ c.held

namespace Channel
variable {c c' c'' : Channel}

theorem Sheds.of_eq (hnext : c'.nextTxIdx = c.nextTxIdx) (hwin : c'.txWin = c.txWin) : Sheds c c' := by
  refine ⟨hnext, fun i hi => ?_⟩
  rw [Channel.held, hwin] at hi
  exact hi

theorem Sheds.trans (h : Sheds c c') (h' : Sheds c' c'') : Sheds c c'' :=
  ⟨h'.next.trans h.next, fun i hi => h.held i (h'.held i hi)⟩

theorem sheds_advanceTx (start : SeqNum) (c : Channel) : Sheds c (advanceTx start c) := by
  refine ⟨rfl, fun i hi => ?_⟩
  obtain ⟨d, hd, rfl⟩ := List.mem_map.mp hi
  exact List.mem_map_of_mem (List.dropWhile_sublist _ |>.mem hd)

private theorem sheds_storeData (dp : DataPacket) (c : Channel) : Sheds c (storeData dp c).ch := by
  rw [storeData]
  simp only
  split_ifs <;> exact .of_eq rfl rfl

private theorem sheds_startSynTimer (c : Channel) : Sheds c (startSynTimer c) := by
  rw [startSynTimer]
  split_ifs <;> exact .of_eq rfl rfl

private theorem sheds_retransmit (c : Channel) : Sheds c (retransmit c) := by
  rw [retransmit]
  split_ifs <;> exact .of_eq rfl rfl

private theorem sheds_handleData (dp : DataPacket) (c : Channel) : Sheds c (handleData dp c).ch :=
  ((sheds_startSynTimer c).trans (sheds_advanceTx dp.rxWinStart _)).trans (sheds_storeData dp _)

private theorem sheds_close (sendClose : Bool) (c : Channel) : Sheds c (close sendClose c).ch :=
  ⟨rfl, fun _ hi => absurd hi List.not_mem_nil⟩

private theorem sheds_onSyn (now : UInt64) (expired : Bool) (c : Channel) : Sheds c (onSyn now expired c).ch := by
  rw [onSyn]
  simp only
  split_ifs
  · exact ⟨rfl, fun _ hi => absurd hi List.not_mem_nil⟩
  all_goals exact .of_eq rfl rfl

/-- A packet that is sent again keeps its number. -/
theorem held_modify (l : List DataPacket) (k : Nat) (seq : SeqNum) :
    (l.modify k fun d => { d with lastSentAckSeq := seq }).map (fun d => d.idx) = l.map fun d => d.idx := by
  induction l generalizing k with
  | nil => cases k <;> rfl
  | cons d rest ih =>
    cases k with
    | zero => rfl
    | succ k =>
      rw [List.modify_succ_cons, List.map_cons, List.map_cons, ih]

private theorem retransmitStep_held (c : Channel) : c.retransmitStep.ch.held = c.held := by
  rw [retransmitStep]
  simp only
  split
  · rfl
  · split
    · rfl
    · split_ifs
      · exact held_modify _ _ _
      · exact held_modify _ _ _
      · rfl

private theorem retransmitStep_nextTxIdx (c : Channel) : c.retransmitStep.ch.nextTxIdx = c.nextTxIdx := by
  rw [retransmitStep]
  simp only
  split
  · rfl
  · split
    · rfl
    · split_ifs <;> rfl

private theorem sheds_retransmitStep (c : Channel) : Sheds c c.retransmitStep.ch := by
  refine ⟨retransmitStep_nextTxIdx c, fun i hi => ?_⟩
  rw [retransmitStep_held] at hi
  exact hi

/-- A timer that has not run out leaves `tx_win` as it is. -/
theorem onSyn_held (now : UInt64) (c : Channel) : (c.onSyn now false).ch.held = c.held := by
  rw [onSyn]
  simp only [Bool.false_eq_true, if_false]
  split_ifs <;> rfl

private theorem sheds_handleNack (np : NackPacket) (c : Channel) : Sheds c (handleNack np c).ch := by
  refine (sheds_advanceTx np.rxWinStart c).trans ?_
  rw [handleNack]
  simp only
  refine Sheds.trans ?_ (sheds_retransmit _)
  split_ifs <;> exact .of_eq rfl rfl

private theorem sheds_handleAck (ap : AckPacket) (c : Channel) : Sheds c (handleAck ap c).ch := by
  have hnext : (handleAck ap c).ch.nextTxIdx = c.nextTxIdx := by
    simp only [handleAck, advanceTx, retransmit]
    split_ifs <;> rfl
  have hwin : (handleAck ap c).ch.txWin = (advanceTx ap.rxWinStart c).txWin := by
    simp only [handleAck, advanceTx, retransmit]
    split_ifs <;> rfl
  exact (sheds_advanceTx ap.rxWinStart c).trans (.of_eq hnext hwin)

private theorem sheds_onRecv (pkt : Packet) (c : Channel) : Sheds c (onRecv pkt c).ch := by
  cases pkt with
  | data w seq payload idx => exact sheds_handleData _ c
  | ack ap =>
    rw [onRecv]
    split
    · exact sheds_handleAck ap c
    · exact .of_eq rfl rfl
    · exact .of_eq rfl rfl
  | nack np => exact sheds_handleNack np c
  | close => exact .of_eq rfl rfl

end Channel

/-! ### The numbers of one sender -/

/-- No number beyond `next_tx_seq` is held or acknowledged, and the one a writer waits with is the last one taken, and neither. -/
structure Numbered (acked : List Nat) (s : Side) : Prop where
  heldLe : ∀ i ∈ s.ch.held, i ≤ s.ch.nextTxIdx
  ackedLe : ∀ i ∈ acked, i ≤ s.ch.nextTxIdx
  waiting : ∀ dp rest w, s.writer = .blocked dp rest w →
    dp.idx = s.ch.nextTxIdx ∧ 1 ≤ dp.idx ∧ dp.idx ∉ s.ch.held ∧ dp.idx ∉ acked

section
variable {acked acked' : List Nat} {s s' : Side}

/-- A step of the sender that takes no number; what it acknowledges was held. -/
theorem Numbered.sheds (h : Numbered acked s) (hch : Channel.Sheds s.ch s'.ch) (hw : s.writer.Follows s'.writer)
    (hacked : ∀ i ∈ acked', i ∈ acked ∨ i ∈ s.ch.held) : Numbered acked' s' := by
  constructor
  · intro i hi
    rw [hch.next]
    exact h.heldLe i (hch.held i hi)
  · intro i hi
    rw [hch.next]
    exact (hacked i hi).elim (h.ackedLe i) (h.heldLe i)
  · intro dp rest woken hb
    obtain ⟨woken', hb'⟩ := hw dp rest woken hb
    obtain ⟨hidx, hpos, hheld, hack⟩ := h.waiting dp rest woken' hb'
    refine ⟨hidx.trans hch.next.symm, hpos, fun hi => hheld (hch.held _ hi), fun hi => ?_⟩
    exact (hacked _ hi).elim hack hheld

/-- A number that is neither held nor acknowledged is sent, or waits. -/
theorem Numbered.trySend {dp : DataPacket} (hheld : ∀ i ∈ s.ch.held, i ≤ s.ch.nextTxIdx) (hacked : ∀ i ∈ acked, i ≤ s.ch.nextTxIdx)
    (hdp : dp.idx = s.ch.nextTxIdx ∧ 1 ≤ dp.idx ∧ dp.idx ∉ s.ch.held ∧ dp.idx ∉ acked) (rest : List UInt8) :
    Numbered acked (s.trySend dp rest).1 := by
  have hsent : ∀ i ∈ (s.ch.sendPacket dp).1.held, i ≤ s.ch.nextTxIdx := by
    intro i hi
    rw [Channel.held, Channel.sendPacket, List.map_append, List.mem_append] at hi
    rcases hi with hi | hi
    · exact hheld i hi
    · rw [List.mem_singleton.mp hi]
      exact hdp.1.le
  rw [Side.trySend]
  split_ifs
  · refine ⟨hsent, hacked, fun dp' rest' w hb => ?_⟩
    obtain ⟨w', hb'⟩ := Writer.follows_next .idle rest dp' rest' w hb
    cases hb'
  · refine ⟨hsent, hacked, fun dp' rest' w hb => ?_⟩
    cases hb
  · refine ⟨hheld, hacked, fun dp' rest' w hb => ?_⟩
    cases hb
    exact hdp

theorem Numbered.writeNext (h : Numbered acked s) (rest : List UInt8) : Numbered acked (s.writeNext rest).1 := by
  have hheld : ∀ i ∈ s.ch.held, i ≤ s.ch.nextTxIdx + 1 := fun i hi => (h.heldLe i hi).trans (Nat.le_succ _)
  have hacked : ∀ i ∈ acked, i ≤ s.ch.nextTxIdx + 1 := fun i hi => (h.ackedLe i hi).trans (Nat.le_succ _)
  refine Numbered.trySend (s := { s with ch := _, chunks := _ }) hheld hacked ⟨rfl, Nat.le_add_left _ _, ?_, ?_⟩ _
  · exact fun hi => absurd (h.heldLe _ hi) (Nat.not_succ_le_self _)
  · exact fun hi => absurd (h.ackedLe _ hi) (Nat.not_succ_le_self _)

end

/-! ### All senders -/

/-- The endpoint takes no number, and no writer begins to wait. -/
def Side.Rests (s s' : Side) : Prop := Channel.Sheds s.ch s'.ch ∧ s.writer.Follows s'.writer

section
variable {n n' : Net} {p : Peer} {s : Side}

theorem Side.Rests.of_eq {s' : Side} (hnext : s'.ch.nextTxIdx = s.ch.nextTxIdx) (hwin : s'.ch.txWin = s.ch.txWin)
    (hw : s'.writer = s.writer) : s.Rests s' := by
  refine ⟨.of_eq hnext hwin, fun _ _ woken h => ⟨woken, ?_⟩⟩
  rw [← hw]
  exact h

theorem Side.Rests.refl (s : Side) : s.Rests s := .of_eq rfl rfl rfl

theorem Side.Rests.after {o : Outcome} (h : Channel.Sheds s.ch o.ch) : s.Rests (s.after o) := ⟨h, Writer.follows_wake _ _⟩

theorem Side.Rests.readMore (s : Side) (len : Nat) (got : List UInt8) : s.Rests (s.readMore len got) := by
  rw [Side.readMore]
  simp only
  split_ifs <;> exact .of_eq rfl rfl rfl

theorem Side.Rests.of_readMore (s : Side) (len : Nat) (got : List UInt8) : (s.readMore len got).Rests s := by
  rw [Side.readMore]
  simp only
  split_ifs <;> exact .of_eq rfl rfl rfl

theorem rests_put (hs : (n.side p).Rests s) (sent : List Packet) (q : Peer) : (n.side q).Rests ((n.put p s sent).side q) := by
  apply Net.put_at (.refl _)
  rintro rfl
  exact hs

theorem rests_deliver {pkt : Packet} (left : List Packet) (q : Peer) : (n.side q).Rests ((n.deliver p pkt left).side q) := by
  apply Net.deliver_at (.refl _)
  · rintro rfl
    exact .of_eq rfl rfl rfl
  · rintro rfl -
    exact .after (Channel.sheds_onRecv _ _)

/-- A datagram that arrives leaves a writer waiting that waits. -/
theorem deliver_follows {pkt : Packet} (left : List Packet) (q : Peer) :
    ((n.deliver p pkt left).side q).writer.Follows (n.side q).writer := by
  apply Net.deliver_at (P := fun s => s.writer.Follows (n.side q).writer) (n := n) (fun _ _ woken h => ⟨woken, h⟩)
  · rintro rfl
    exact fun _ _ woken h => ⟨woken, h⟩
  · rintro rfl -
    exact Writer.wake_follows _ _

/-- Only the loop of `write` takes and sends numbers. -/
theorem step_rests {e : Event} (hs : n.step e = some n') (q : Peer) : (n.side q).Rests (n'.side q) ∨
    (∃ rest, e = .writeNext q ∧ (n.side q).writer = .running rest ∧ n'.side q = ((n.side q).writeNext rest).1) ∨
    ∃ dp rest, e = .writeWake q ∧ (n.side q).ch.chan = true ∧ (n.side q).writer = .blocked dp rest true ∧
      n'.side q = ((n.side q).trySend dp rest).1 := by
  cases Net.takes_of_step hs with
  | write =>
    refine .inl (rests_put ?_ _ q)
    exact ⟨.of_eq rfl rfl, Writer.follows_next _ _⟩
  | @writeNext p rest _ hrunning =>
    by_cases hq : q = p
    · subst hq
      exact .inr (.inl ⟨rest, rfl, hrunning, Net.put_side ..⟩)
    · simp only [Net.put, Function.update_of_ne hq]
      exact .inl (.refl _)
  | @writeWake p dp rest _ hblocked hchan =>
    by_cases hq : q = p
    · subst hq
      exact .inr (.inr ⟨dp, rest, rfl, hchan, hblocked, Net.put_side ..⟩)
    · simp only [Net.put, Function.update_of_ne hq]
      exact .inl (.refl _)
  | writeThrow =>
    refine .inl (rests_put ?_ _ q)
    exact ⟨.of_eq rfl rfl, Writer.follows_idle _⟩
  | writeTimeout =>
    refine .inl (rests_put ?_ _ q)
    exact ⟨.of_eq rfl rfl, Writer.follows_idle _⟩
  | read => exact .inl (rests_put (.readMore _ _ _) _ q)
  | readWake => exact .inl (rests_put (.readMore _ _ _) _ q)
  | readThrow =>
    refine .inl (rests_put ?_ _ q)
    exact .of_eq rfl rfl rfl
  | syn => exact .inl (rests_put (.after (Channel.sheds_onSyn _ _ _)) _ q)
  | retransmit => exact .inl (rests_put (.after (Channel.sheds_retransmitStep _)) _ q)
  | close => exact .inl (rests_put (.after (Channel.sheds_close _ _)) _ q)
  | closeTask =>
    refine .inl (rests_put ?_ _ q)
    exact ⟨Channel.sheds_close false _, Writer.follows_wake _ _⟩
  | deliver => exact .inl (rests_deliver _ q)
  | drop => exact .inl (.refl _)
  | dup => exact .inl (.refl _)

/-- Only what was held is acknowledged. -/
theorem mem_acknowledges {e : Event} {i : Nat} (h : i ∈ n.acknowledges n' p e) : i ∈ (n.side p).ch.held := by
  cases e with
  | deliver q k =>
    rw [Net.acknowledges] at h
    split_ifs at h
    · exact List.mem_of_mem_filter h
    · cases h
  | _ => cases h

theorem Marked.numbered_step {m m' : Marked} {e : Event} (h : ∀ q, Numbered (m.acked q) (m.net.side q))
    (hs : m.step e = some m') : ∀ q, Numbered (m'.acked q) (m'.net.side q) := by
  obtain ⟨n', hn, rfl⟩ := Option.map_eq_some_iff.mp hs
  intro q
  have hacked : ∀ i ∈ m.acked q ++ m.net.acknowledges n' q e, i ∈ m.acked q ∨ i ∈ (m.net.side q).ch.held :=
    fun i hi => (List.mem_append.mp hi).imp_right mem_acknowledges
  rcases step_rests hn q with ⟨hch, hw⟩ | ⟨rest, rfl, -, hside⟩ | ⟨dp, rest, rfl, -, hblocked, hside⟩
  · exact (h q).sheds hch hw hacked
  · show Numbered (m.acked q ++ []) (n'.side q)
    rw [List.append_nil, hside]
    exact (h q).writeNext rest
  · show Numbered (m.acked q ++ []) (n'.side q)
    rw [List.append_nil, hside]
    exact Numbered.trySend (h q).heldLe (h q).ackedLe ((h q).waiting dp rest true hblocked) rest

theorem Marked.numbered_init (mwp : Peer → BitVec 16) (q : Peer) :
    Numbered ((Marked.init mwp).acked q) ((Marked.init mwp).net.side q) :=
  ⟨fun _ hi => (by cases hi), fun _ hi => (by cases hi), fun _ _ _ hb => (by cases hb)⟩

theorem Marked.kept_iff {m : Marked} :
    m.Kept p ↔ ∀ i, 1 ≤ i → i ≤ (m.net.side p).ch.nextTxIdx → i ∈ (m.net.side p).ch.held ∨ i ∈ m.acked p := by
  constructor
  · intro h i hpos hle
    apply h i
    rw [List.mem_range'_1]
    omega
  · intro h i hi
    rw [List.mem_range'_1] at hi
    exact h i hi.1 (by omega)

/-- A number that was taken and is gone: not held, not acknowledged, and no writer waits with it. -/
structure Lost (i : Nat) (acked : List Nat) (s : Side) : Prop where
  pos : 1 ≤ i
  taken : i ≤ s.ch.nextTxIdx
  unheld : i ∉ s.ch.held
  unacked : i ∉ acked
  unwaited : ∀ dp rest woken, s.writer = .blocked dp rest woken → dp.idx ≠ i

theorem Lost.not_kept {m : Marked} {i : Nat} (h : Lost i (m.acked p) (m.net.side p)) : ¬ m.Kept p :=
  fun hkept => (Marked.kept_iff.mp hkept i h.pos h.taken).elim h.unheld h.unacked

theorem Lost.trySend {i : Nat} {acked : List Nat} {dp : DataPacket} (h : 1 ≤ i ∧ i ≤ s.ch.nextTxIdx ∧ i ∉ s.ch.held ∧ i ∉ acked)
    (hdp : dp.idx ≠ i) (rest : List UInt8) : Lost i acked (s.trySend dp rest).1 := by
  obtain ⟨hpos, htaken, hheld, hacked⟩ := h
  have hsent : i ∉ (s.ch.sendPacket dp).1.held := by
    rw [Channel.held, Channel.sendPacket, List.map_append, List.mem_append]
    rintro (hi | hi)
    · exact hheld hi
    · exact hdp (List.mem_singleton.mp hi).symm
  rw [Side.trySend]
  split_ifs
  · refine ⟨hpos, htaken, hsent, hacked, fun dp' rest' w hb => ?_⟩
    obtain ⟨w', hb'⟩ := Writer.follows_next .idle rest dp' rest' w hb
    cases hb'
  · refine ⟨hpos, htaken, hsent, hacked, fun dp' rest' w hb => ?_⟩
    cases hb
  · refine ⟨hpos, htaken, hheld, hacked, fun dp' rest' w hb => ?_⟩
    cases hb
    exact hdp

theorem Lost.writeNext {i : Nat} {acked : List Nat} (h : 1 ≤ i ∧ i ≤ s.ch.nextTxIdx ∧ i ∉ s.ch.held ∧ i ∉ acked)
    (rest : List UInt8) : Lost i acked (s.writeNext rest).1 := by
  obtain ⟨hpos, htaken, hheld, hacked⟩ := h
  have hnew : (s.ch.takePacket (rest.take maxPayload)).2.idx ≠ i := by
    show s.ch.nextTxIdx + 1 ≠ i
    omega
  have htaken' : i ≤ s.ch.nextTxIdx + 1 := htaken.trans (Nat.le_succ _)
  apply Lost.trySend _ hnew
  exact ⟨hpos, htaken', hheld, hacked⟩

/-- No step brings a number back that is gone. -/
theorem Lost.step {m m' : Marked} {e : Event} {i : Nat} (h : Lost i (m.acked p) (m.net.side p)) (hs : m.step e = some m') :
    Lost i (m'.acked p) (m'.net.side p) := by
  obtain ⟨n', hn, rfl⟩ := Option.map_eq_some_iff.mp hs
  have hacked : i ∉ m.acked p ++ m.net.acknowledges n' p e :=
    fun hi => (List.mem_append.mp hi).elim h.unacked fun ha => h.unheld (mem_acknowledges ha)
  rcases step_rests hn p with ⟨hch, hw⟩ | ⟨rest, rfl, -, hside⟩ | ⟨dp, rest, rfl, -, hblocked, hside⟩
  · refine ⟨h.pos, ?_, fun hi => h.unheld (hch.held i hi), hacked, fun dp rest woken hb => ?_⟩
    · rw [hch.next]
      exact h.taken
    · obtain ⟨woken', hb'⟩ := hw dp rest woken hb
      exact h.unwaited dp rest woken' hb'
  · rw [hside]
    exact Lost.writeNext ⟨h.pos, h.taken, h.unheld, hacked⟩ rest
  · rw [hside]
    exact Lost.trySend ⟨h.pos, h.taken, h.unheld, hacked⟩ (h.unwaited dp rest true hblocked) rest

theorem Lost.run {m m' : Marked} {es : List Event} {i : Nat} (h : Lost i (m.acked p) (m.net.side p))
    (hr : run Marked.step m es = some m') : Lost i (m'.acked p) (m'.net.side p) :=
  invariant_of_step (fun m : Marked => Lost i (m.acked p) (m.net.side p)) (fun _ _ _ h hs => h.step hs) h hr

/-- The number a writer waits with is gone when it gives up. -/
theorem Numbered.lost {acked : List Nat} {s' : Side} (h : Numbered acked s) (hwaiting : s.writer.waiting = true)
    (hch : s'.ch = s.ch) (hidle : s'.writer = .idle) : ∃ i, Lost i acked s' := by
  cases hw : s.writer with
  | idle =>
    rw [hw] at hwaiting
    cases hwaiting
  | running rest =>
    rw [hw] at hwaiting
    cases hwaiting
  | blocked dp rest woken =>
    obtain ⟨hidx, hpos, hheld, hack⟩ := h.waiting dp rest woken hw
    rw [← hch] at hidx hheld
    refine ⟨dp.idx, hpos, hidx.le, hheld, hack, fun dp' rest' woken' hb => ?_⟩
    rw [hidle] at hb
    cases hb

/-! ### Runs that drop no number -/

/-- The steps of the endpoint that drop no number: its `write` does not throw while it waits, and `tx_win` is empty where
`close` clears it. -/
def DropsNone (p : Peer) (n : Net) : Event → Prop
  | .writeTimeout q => q ≠ p
  | .writeWake q => q = p → (n.side p).ch.chan = true
  | .close q => q = p → (n.side p).ch.txWin = []
  | .closeTask q => q = p → (n.side p).ch.txWin = []
  | .syn q _ expired => q = p → expired = true → (n.side p).ch.txWin = []
  | _ => True

instance (p : Peer) (n : Net) : (e : Event) → Decidable (DropsNone p n e)
  | .writeTimeout q => inferInstanceAs (Decidable (q ≠ p))
  | .writeWake q => inferInstanceAs (Decidable (q = p → _ = _))
  | .close q => inferInstanceAs (Decidable (q = p → _ = _))
  | .closeTask q => inferInstanceAs (Decidable (q = p → _ = _))
  | .syn q _ expired => inferInstanceAs (Decidable (q = p → expired = true → _ = _))
  | .write .. | .writeNext _ | .read .. | .readWake _ | .retransmit _ | .deliver .. | .drop .. | .dup .. => isTrue trivial

/-- Every number taken is held or acknowledged, or the writer waits with it. -/
def Accounted (acked : List Nat) (s : Side) : Prop :=
  ∀ i, 1 ≤ i → i ≤ s.ch.nextTxIdx →
    i ∈ s.ch.held ∨ i ∈ acked ∨ ∃ dp rest woken, s.writer = .blocked dp rest woken ∧ dp.idx = i

theorem Accounted.kept {m : Marked} (h : Accounted (m.acked p) (m.net.side p))
    (hno : (m.net.side p).writer.waiting = false) : m.Kept p := by
  refine Marked.kept_iff.mpr fun i hpos hle => ?_
  rcases h i hpos hle with hheld | hacked | ⟨dp, rest, woken, hb, -⟩
  · exact .inl hheld
  · exact .inr hacked
  · rw [hb] at hno
    cases hno

section
variable {acked acked' : List Nat} {s' : Side}

/-- A step that takes no number, where each one that leaves `tx_win` is acknowledged, and a writer that waits still waits. -/
theorem Accounted.keeps (h : Accounted acked s) (hnext : s'.ch.nextTxIdx = s.ch.nextTxIdx) (hw : s'.writer.Follows s.writer)
    (hheld : ∀ i ∈ s.ch.held, i ∈ s'.ch.held ∨ i ∈ acked') (hacked : ∀ i ∈ acked, i ∈ acked') : Accounted acked' s' := by
  intro i hpos hle
  rw [hnext] at hle
  rcases h i hpos hle with hi | hi | ⟨dp, rest, woken, hb, hidx⟩
  · exact (hheld i hi).imp_right .inl
  · exact .inr (.inl (hacked i hi))
  · obtain ⟨woken', hb'⟩ := hw dp rest woken hb
    exact .inr (.inr ⟨dp, rest, woken', hb', hidx⟩)

theorem Accounted.rests (h : Accounted acked s) (hs : s'.Rests s) : Accounted acked s' :=
  h.keeps hs.1.next.symm hs.2 (fun i hi => .inl (hs.1.held i hi)) fun _ hi => hi

theorem Accounted.trySend {dp : DataPacket}
    (h : ∀ i, 1 ≤ i → i ≤ s.ch.nextTxIdx → i ∈ s.ch.held ∨ i ∈ acked ∨ i = dp.idx) (rest : List UInt8) :
    Accounted acked (s.trySend dp rest).1 := by
  have hsent : ∀ i, 1 ≤ i → i ≤ s.ch.nextTxIdx → i ∈ (s.ch.sendPacket dp).1.held ∨ i ∈ acked := by
    intro i hpos hle
    rw [Channel.held, Channel.sendPacket, List.map_append, List.mem_append]
    rcases h i hpos hle with hi | hi | rfl
    · exact .inl (.inl hi)
    · exact .inr hi
    · exact .inl (.inr (List.mem_singleton_self _))
  rw [Side.trySend]
  split_ifs
  · exact fun i hpos hle => (hsent i hpos hle).imp_right .inl
  · exact fun i hpos hle => (hsent i hpos hle).imp_right .inl
  · intro i hpos hle
    rcases h i hpos hle with hi | hi | rfl
    · exact .inl hi
    · exact .inr (.inl hi)
    · exact .inr (.inr ⟨dp, rest, false, rfl, rfl⟩)

theorem Accounted.writeNext (h : Accounted acked s) (hno : s.writer.waiting = false) (rest : List UInt8) :
    Accounted acked (s.writeNext rest).1 := by
  refine Accounted.trySend (s := { s with ch := _, chunks := _ }) (fun i hpos hle => ?_) _
  rcases Nat.le_or_eq_of_le_succ hle with hle | rfl
  · rcases h i hpos hle with hi | hi | ⟨dp, rest, woken, hb, -⟩
    · exact .inl hi
    · exact .inr (.inl hi)
    · rw [hb] at hno
      cases hno
  · exact .inr (.inr rfl)

theorem Accounted.append (h : Accounted acked s) (l : List Nat) : Accounted (acked ++ l) s :=
  h.keeps rfl (fun _ _ woken hb => ⟨woken, hb⟩) (fun _ hi => .inl hi) fun _ hi => List.mem_append_left l hi

/-- A step of one endpoint leaves the numbers of the other as they are. -/
theorem Accounted.put {q : Peer} {u : Side} (h : Accounted acked (n.side p)) (hs : q = p → Accounted acked u)
    (sent : List Packet) (l : List Nat) : Accounted (acked ++ l) ((n.put q u sent).side p) :=
  (Net.put_at h hs sent).append l

/-- What `close` clears is nothing where `tx_win` is empty. -/
theorem Accounted.closed (h : Accounted acked s) (hnext : s'.ch.nextTxIdx = s.ch.nextTxIdx)
    (hw : s'.writer.Follows s.writer) (hempty : s.ch.txWin = []) : Accounted acked s' := by
  refine h.keeps hnext hw (fun i hi => ?_) fun _ hi => hi
  rw [Channel.held, hempty] at hi
  cases hi

end

theorem Accounted.net_step {acked : List Nat} {e : Event} (h : Accounted acked (n.side p)) (hok : DropsNone p n e)
    (hs : n.step e = some n') : Accounted (acked ++ n.acknowledges n' p e) (n'.side p) := by
  cases Net.takes_of_step hs with
  | @write q bytes _ hidle =>
    apply h.put
    rintro rfl
    refine h.rests ⟨.of_eq rfl rfl, ?_⟩
    rw [hidle]
    exact Writer.follows_idle _
  | writeNext _ hrunning =>
    apply h.put
    rintro rfl
    apply h.writeNext
    rw [hrunning]
    rfl
  | writeWake _ hblocked =>
    apply h.put
    rintro rfl
    apply Accounted.trySend
    intro i hpos hle
    rcases h i hpos hle with hi | hi | ⟨dp, rest, woken, hb, hidx⟩
    · exact .inl hi
    · exact .inr (.inl hi)
    · rw [hblocked] at hb
      cases hb
      exact .inr (.inr hidx.symm)
  | writeThrow _ _ hfreed =>
    apply h.put
    intro hq
    subst hq
    exact absurd (hfreed.symm.trans (hok rfl)) Bool.false_ne_true
  | writeTimeout =>
    apply h.put
    intro hq
    exact absurd hq hok
  | read =>
    apply h.put
    rintro rfl
    exact h.rests (.of_readMore _ _ _)
  | readWake =>
    apply h.put
    rintro rfl
    exact h.rests (.of_readMore _ _ _)
  | readThrow =>
    apply h.put
    rintro rfl
    exact h.rests (.of_eq rfl rfl rfl)
  | @syn q now expired =>
    apply h.put
    rintro rfl
    cases expired with
    | true => exact h.closed rfl (Writer.wake_follows _ _) (hok rfl rfl)
    | false =>
      refine h.keeps (Channel.sheds_onSyn _ _ _).next (Writer.wake_follows _ _) (fun i hi => .inl ?_) fun _ hi => hi
      rw [← Channel.onSyn_held now] at hi
      exact hi
  | retransmit =>
    apply h.put
    rintro rfl
    refine h.keeps (Channel.retransmitStep_nextTxIdx _) (Writer.wake_follows _ _) (fun i hi => .inl ?_) fun _ hi => hi
    rw [← Channel.retransmitStep_held] at hi
    exact hi
  | close =>
    apply h.put
    rintro rfl
    exact h.closed rfl (Writer.wake_follows _ _) (hok rfl)
  | closeTask =>
    apply h.put
    rintro rfl
    exact h.closed rfl (Writer.wake_follows _ _) (hok rfl)
  | @deliver q k pkt =>
    refine h.keeps (rests_deliver _ p).1.next (deliver_follows _ p) (fun i hi => ?_) fun i hi => List.mem_append_left _ hi
    by_cases hin : i ∈ ((n.deliver q pkt ((n.flight q.other).eraseIdx k)).side p).ch.held
    · exact .inl hin
    · refine .inr (List.mem_append_right _ ?_)
      rw [Net.acknowledges]
      split_ifs with hq
      · exact List.mem_filter.mpr ⟨hi, by simpa using hin⟩
      · -- the other endpoint got it
        exact absurd (Net.deliver_at (P := fun s => i ∈ s.ch.held) (n := n) hi _ (fun hq' => absurd hq' hq)
          fun hq' => absurd hq' hq) hin
  | drop => exact h.append _
  | dup => exact h.append _

theorem Accounted.step {m m' : Marked} {e : Event} (h : Accounted (m.acked p) (m.net.side p)) (hok : DropsNone p m.net e)
    (hs : m.step e = some m') : Accounted (m'.acked p) (m'.net.side p) := by
  obtain ⟨n', hn, rfl⟩ := Option.map_eq_some_iff.mp hs
  exact h.net_step hok hn

theorem Marked.accounted_init (mwp : Peer → BitVec 16) (p : Peer) :
    Accounted ((Marked.init mwp).acked p) ((Marked.init mwp).net.side p) :=
  fun _ hpos hle => absurd (hpos.trans hle) (Nat.not_succ_le_zero 0)

/-- A packet that `can_send` lets go is sent, and its writer does not wait. -/
theorem writeNext_waiting {rest : List UInt8} (hcan : (s.ch.takePacket []).1.canSend = true) :
    (s.writeNext rest).1.writer.waiting = false := by
  have hcan' : (s.ch.takePacket (rest.take maxPayload)).1.canSend = true := hcan
  rw [Side.writeNext, Side.trySend]
  simp only [hcan', if_true]
  split_ifs
  · exact Writer.waiting_next _
  · rfl

/-- `write` throws out of its wait and leaves the channel as it is, or out of a send. -/
theorem throws_cases {e : Event} (hthrow : Throws n p e) (hs : n.step e = some n') :
    ((n.side p).writer.waiting = true ∧ (n'.side p).ch = (n.side p).ch ∧ (n'.side p).writer = .idle ∧
      n.acknowledges n' p e = []) ∨
    ((n.side p).writer.waiting = false ∧ (n'.side p).writer.waiting = false ∧ DropsNone p n e) := by
  cases Net.takes_of_step hs with
  | writeTimeout _ hblocked =>
    obtain rfl : _ = p := hthrow
    refine .inl ⟨?_, ?_, ?_, rfl⟩
    · rw [hblocked]
      rfl
    · rw [Net.put_side]
    · rw [Net.put_side]
  | writeThrow _ hblocked =>
    obtain ⟨rfl, -⟩ := hthrow
    refine .inl ⟨?_, ?_, ?_, rfl⟩
    · rw [hblocked]
      rfl
    · rw [Net.put_side]
    · rw [Net.put_side]
  | writeWake _ _ hchan =>
    obtain ⟨rfl, hfreed⟩ := hthrow
    exact absurd (hfreed.symm.trans hchan) Bool.false_ne_true
  | writeNext _ hrunning =>
    obtain ⟨rfl, -, hcan⟩ := hthrow
    refine .inr ⟨?_, ?_, trivial⟩
    · rw [hrunning]
      rfl
    · rw [Net.put_side]
      exact writeNext_waiting hcan
  | _ => exact hthrow.elim

/-- In every run that drops no number, and in every state it reaches, when `write` throws: every number taken is in `tx_win` or
acknowledged, if and only if the exception does not come from the wait. From the wait, one is lost for the rest of every run. -/
theorem write_throws_iff (mwp : Peer → BitVec 16) (es : List Event) (m m' : Marked) (e : Event)
    (hg : Guarded Marked.step (fun m => DropsNone p m.net) (Marked.init mwp) es)
    (hr : run Marked.step (Marked.init mwp) es = some m) (hthrow : Throws m.net p e) (hs : m.step e = some m') :
    (m'.Kept p ↔ (m.net.side p).writer.waiting = false) ∧
    ((m.net.side p).writer.waiting = true → ∀ es' m'', run Marked.step m' es' = some m'' → ¬ m''.Kept p) := by
  have hnumbered := invariant_of_step (fun m => ∀ q, Numbered (m.acked q) (m.net.side q))
    (fun _ _ _ h hs => Marked.numbered_step h hs) (Marked.numbered_init mwp) hr p
  have haccounted := invariant_of_guarded (fun m : Marked => Accounted (m.acked p) (m.net.side p))
    (fun _ _ _ h hok hs => h.step hok hs) (Marked.accounted_init mwp p) hg hr
  have hs' := hs
  obtain ⟨n', hn, rfl⟩ := Option.map_eq_some_iff.mp hs
  rcases throws_cases hthrow hn with ⟨hwaiting, hch, hidle, hnone⟩ | ⟨hno, hno', hok⟩
  · -- the number the writer waited with is gone
    obtain ⟨i, hi⟩ := hnumbered.lost hwaiting hch hidle
    have hacked : m.acked p ++ m.net.acknowledges n' p e = m.acked p := by rw [hnone, List.append_nil]
    rw [← hacked] at hi
    have hgone (es' : List Event) (m'' : Marked)
        (hr' : run Marked.step ⟨n', fun p => m.acked p ++ m.net.acknowledges n' p e⟩ es' = some m'') : ¬ m''.Kept p :=
      (Lost.run (m := ⟨n', _⟩) hi hr').not_kept
    refine ⟨⟨fun hkept => absurd hkept (hgone [] _ rfl), fun hno => ?_⟩, fun _ => hgone⟩
    rw [hwaiting] at hno
    cases hno
  · refine ⟨⟨fun _ => hno, fun _ => (haccounted.step hok hs').kept hno'⟩, fun hwaiting => ?_⟩
    rw [hno] at hwaiting
    cases hwaiting

end

/-- The window has room for one packet; the second one waits with its number taken. -/
def secondWaits : List Event := [.write .a [1], .writeNext .a, .write .a [2], .writeNext .a]

theorem write_throws_iff_timeout :
    ∃ m m', run Marked.step (Marked.init fun _ => 4096) secondWaits = some m ∧ m.step (.writeTimeout .a) = some m' ∧
      (m.net.side .a).writer.waiting = true ∧ ∀ es' m'', run Marked.step m' es' = some m'' → ¬ m''.Kept .a := by
  have hrun : ∃ m, m ∈ run Marked.step (Marked.init fun _ => 4096) secondWaits ∧ (m.net.side .a).writer.waiting = true ∧
      ∃ m', m' ∈ m.step (.writeTimeout .a) ∧ (m'.net.side .a).writer = .idle := by decide +kernel
  obtain ⟨m, hm, hwaiting, m', hm', -⟩ := hrun
  have hthrows := write_throws_iff (fun _ => 4096) secondWaits m m' (.writeTimeout .a) (by decide +kernel) hm rfl hm'
  exact ⟨m, m', hm, hm', hwaiting, hthrows.2 hwaiting⟩

/-- The wait times out. The first packet is read and acknowledged, the third one arrives, and the receiver asks for the second. -/
def gapSeen : List Event :=
  secondWaits ++ [.writeTimeout .a] ++
    [.read .b 1, .deliver .b 0, .readWake .b, .syn .b 0 false, .deliver .a 0, .write .a [3], .writeNext .a, .deliver .b 0,
      .read .b 1, .deliver .a 0, .retransmit .a]

/-- After the time-out number 2 is neither held nor acknowledged. The next `write` continues with number 3; its byte is in
`rx_win` and a `read` of one byte waits, and the process of the sender exits. -/
theorem write_throws_gap :
    (∃ m, run Marked.step (Marked.init fun _ => 4096) (secondWaits ++ [.writeTimeout .a]) = some m ∧ ¬ m.Kept .a) ∧
    ∃ m, run Marked.step (Marked.init fun _ => 4096) gapSeen = some m ∧ ¬ m.Kept .a ∧
      (m.net.side .b).ch.rxWin.map (fun d => (d.seq, d.data)) = [(3, [3])] ∧
      (m.net.side .b).reader = .blocked 1 [] false ∧ (m.net.side .a).ch.exited = true := by
  have hthrown : ∃ m, m ∈ run Marked.step (Marked.init fun _ => 4096) (secondWaits ++ [.writeTimeout .a]) ∧
      ¬ m.Kept .a := by decide +kernel
  have hseen : ∃ m, m ∈ run Marked.step (Marked.init fun _ => 4096) gapSeen ∧ ¬ m.Kept .a ∧
      (m.net.side .b).ch.rxWin.map (fun d => (d.seq, d.data)) = [(3, [3])] ∧
      (m.net.side .b).reader = .blocked 1 [] false ∧ (m.net.side .a).ch.exited = true := by decide +kernel
  exact ⟨hthrown, hseen⟩

end Tornet.Udt
