import Tornet.Udt.InOrder
import Tornet.Udt.Lane

/-! Closing a channel: what the other side can still read of the bytes that were written before. -/
namespace Tornet.Udt
open Library Runs

/-! ### What is written is read, in the window, on the wire or not sent yet -/

/-- The bytes of the current `write` that are not on the wire. -/
def Writer.unsent : Writer → List UInt8
  | .idle => []
  | .running rest => rest
  | .blocked dp rest _ => dp.data ++ rest

/-- The bytes that a receiver has returned or copied, holds in its window, or finds on the wire as long as it is open. -/
def Side.conveyed (u : Side) (wire : List Packet) : List UInt8 :=
  u.returned ++ u.reader.got ++ bytesOf u.ch.rxWin ++ (if u.ch.chan then fresh u.ch.rxAckPack.rxWinEndIdx wire else [])

/-- The law of conservation of one direction; the first `kept` bytes are not lost. -/
structure Balanced (kept : List UInt8) (s u : Side) (wire : List Packet) : Prop where
  kept : kept <+: u.conveyed wire
  stream : s.ch.chan = true → u.conveyed wire ++ s.writer.unsent = s.passed
  closed : u.ch.chan = false → u.ch.rxWin = []

theorem Writer.unsent_next (rest : List UInt8) : (Writer.next rest).unsent = rest := by
  rw [Writer.next]
  split_ifs with h
  · exact h.symm
  · rfl

theorem Writer.unsent_wake (b : Bool) (w : Writer) : (w.wake b).unsent = w.unsent := by
  cases b with
  | false => cases w <;> rfl
  | true => cases w <;> rfl

section
variable {kept : List UInt8} {s s' u u' : Side} {wire wire' back sent : List Packet}

/-- A wire that gives no more bytes than before. -/
theorem conveyed_append (h : Directed s u wire back) (hquiet : ∀ pkt ∈ sent, pkt.Quiet) :
    u.conveyed (wire ++ sent) = u.conveyed wire := by
  rw [Side.conveyed, Side.conveyed]
  split_ifs with hopen
  · obtain ⟨top, hqueue, -⟩ := (h hopen).1.queue
    rw [fresh_append hqueue, (Queue.of_quiet hquiet).fresh_nil (Nat.le_refl _), List.append_nil]
  · rfl

/-- A step of the sender that sends no data. -/
theorem Balanced.sender (h : Balanced kept s u wire) (hd : Directed s u wire back) (hquiet : ∀ pkt ∈ sent, pkt.Quiet)
    (hs : s'.ch.chan = true → s.ch.chan = true ∧ s'.writer.unsent = s.writer.unsent ∧ s'.passed = s.passed) :
    Balanced kept s' u (wire ++ sent) := by
  refine ⟨?_, fun hchan => ?_, h.closed⟩
  · rw [conveyed_append hd hquiet]
    exact h.kept
  · obtain ⟨hopen, hunsent, hpassed⟩ := hs hchan
    rw [conveyed_append hd hquiet, hunsent, hpassed]
    exact h.stream hopen

/-- A step of the receiver that moves bytes from one place to the next. -/
theorem Balanced.receiver (h : Balanced kept s u wire) (hsame : u'.conveyed wire' = u.conveyed wire)
    (hclosed : u'.ch.chan = false → u'.ch.rxWin = []) : Balanced kept s u' wire' := by
  refine ⟨?_, fun hchan => ?_, hclosed⟩
  · rw [hsame]
    exact h.kept
  · rw [hsame]
    exact h.stream hchan

/-- A packet that is sent is the next one on the wire. -/
theorem conveyed_data {top : Nat} {dp : DataPacket} (hopen : u.ch.chan = true)
    (hqueue : Queue u.ch.rxAckPack.rxWinEndIdx wire top) (hidx : dp.idx = top + 1) :
    u.conveyed (wire ++ [Channel.dataPacket dp]) = u.conveyed wire ++ dp.data := by
  rw [Side.conveyed, Side.conveyed, if_pos hopen, if_pos hopen, fresh_append hqueue, Channel.dataPacket, hidx, fresh_next]
  simp only [fresh, List.append_nil, List.append_assoc]

theorem Balanced.trySend {dp : DataPacket} {rest : List UInt8} {woken : Bool} (h : Balanced kept s u wire)
    (hd : Directed s u wire back) (hblocked : s.writer = .blocked dp rest woken)
    (hopen : s.ch.chan = true → u.ch.chan = true) :
    Balanced kept (s.trySend dp rest).1 u (wire ++ (s.trySend dp rest).2) := by
  have hnone : ∀ pkt ∈ ([] : List Packet), pkt.Quiet := fun pkt hpkt => absurd hpkt List.not_mem_nil
  rw [Side.trySend]
  by_cases hcan : s.ch.canSend = true
  · rw [if_pos hcan]
    by_cases hchan : s.ch.chan = true
    · obtain ⟨top, hqueue, hnext⟩ := hd.pending (hopen hchan) hchan hblocked
      have hstream := h.stream hchan
      rw [hblocked, Writer.unsent] at hstream
      rw [if_pos hchan, Channel.sendPacket, if_pos hchan]
      have hconveyed := conveyed_data (hopen hchan) hqueue hnext
      refine ⟨?_, fun _ => ?_, h.closed⟩
      · rw [hconveyed]
        exact h.kept.trans (List.prefix_append _ _)
      · rw [hconveyed, Writer.unsent_next, List.append_assoc]
        exact hstream
    · rw [Channel.sendPacket, if_neg hchan]
      exact h.sender hd hnone fun hchan' => absurd hchan' hchan
  · rw [if_neg hcan]
    refine h.sender hd hnone fun hchan => ⟨hchan, ?_, rfl⟩
    rw [hblocked]
    rfl

theorem Balanced.writeNext {rest : List UInt8} (h : Balanced kept s u wire) (hd : Directed s u wire back)
    (hrunning : s.writer = .running rest) (hopen : s.ch.chan = true → u.ch.chan = true) :
    Balanced kept (s.writeNext rest).1 u (wire ++ (s.writeNext rest).2) := by
  have hno : s.writer.waiting = false := by
    rw [hrunning]
    rfl
  have htaken := hd.take hno (rest.take maxPayload) (rest.drop maxPayload) (s.chunks ++ [rest.take maxPayload])
  have hheld : Balanced kept { s with
      ch := (s.ch.takePacket (rest.take maxPayload)).1
      chunks := s.chunks ++ [rest.take maxPayload]
      writer := .blocked (s.ch.takePacket (rest.take maxPayload)).2 (rest.drop maxPayload) false } u wire := by
    refine ⟨h.kept, fun hchan => ?_, h.closed⟩
    have hstream := h.stream hchan
    rw [hrunning] at hstream
    show u.conveyed wire ++ (rest.take maxPayload ++ rest.drop maxPayload) = s.passed
    rw [List.take_append_drop]
    exact hstream
  have hsent := hheld.trySend htaken rfl hopen
  rw [Side.trySend] at hsent
  rw [Side.writeNext, Side.trySend]
  exact hsent

/-- What an endpoint sends is not what it receives. -/
theorem trySend_conveyed (u : Side) (dp : DataPacket) (rest : List UInt8) (wire : List Packet) :
    (u.trySend dp rest).1.conveyed wire = u.conveyed wire ∧ (u.trySend dp rest).1.ch.rxWin = u.ch.rxWin ∧
    (u.trySend dp rest).1.ch.chan = u.ch.chan := by
  rw [Side.trySend]
  split_ifs <;> exact ⟨rfl, rfl, rfl⟩

private theorem writeNext_conveyed (u : Side) (rest : List UInt8) (wire : List Packet) :
    (u.writeNext rest).1.conveyed wire = u.conveyed wire ∧ (u.writeNext rest).1.ch.rxWin = u.ch.rxWin ∧
    (u.writeNext rest).1.ch.chan = u.ch.chan :=
  trySend_conveyed _ _ _ _

/-- `read` moves bytes out of the window. -/
theorem conveyed_readMore (hd : Directed s u wire back) (hclosed : u.ch.chan = false → u.ch.rxWin = []) (len : Nat) :
    (u.readMore len u.reader.got).conveyed wire = u.conveyed wire ∧ (u.readMore len u.reader.got).ch.chan = u.ch.chan ∧
    (u.ch.rxWin = [] → (u.readMore len u.reader.got).ch.rxWin = []) := by
  have hoff : ∃ start idx, (Channel.readLoop u.ch.rxAckPack u.ch.rxWin len).2.2.2 =
      { u.ch.rxAckPack with rxWinStart := start, rxWinStartIdx := idx } ∧
      bytesOf u.ch.rxWin = (Channel.readLoop u.ch.rxAckPack u.ch.rxWin len).1 ++
        bytesOf (Channel.readLoop u.ch.rxAckPack u.ch.rxWin len).2.2.1 := by
    cases hopen : u.ch.chan with
    | true =>
      have hgap := (hd hopen).1.gapless
      have hoff := readLoop_readOff len hgap.row hgap.startSeq
      obtain ⟨start, idx, hframe⟩ := hoff.frame
      exact ⟨start, idx, hframe, hoff.bytes⟩
    | false =>
      rw [hclosed hopen]
      exact ⟨_, _, rfl, rfl⟩
  obtain ⟨start, idx, hframe, hbytes⟩ := hoff
  rw [Side.conveyed, Side.conveyed, hbytes, Side.readMore]
  simp only [hframe]
  refine ⟨?_, ?_, fun hnil => ?_⟩
  · split_ifs <;> simp only [Reader.got, List.append_assoc, List.append_nil]
  · split_ifs <;> rfl
  · rw [hnil]
    split_ifs <;> rfl

/-- What a handler of the receiver leaves alone. -/
theorem conveyed_after {o : Outcome} (hrx : Channel.SameRx u.ch o.ch) (wire : List Packet) :
    (u.after o).conveyed wire = u.conveyed wire := by
  obtain ⟨⟨seq, now, hack⟩, hwin, hchan⟩ := hrx
  rw [Side.conveyed, Side.conveyed, Side.after]
  simp only [Reader.got_wake, hack, hwin, hchan]

/-- A receiver that closes with nothing unread. -/
theorem conveyed_closed (hdrained : u.ch.chan = true → u.ch.rxWin = [] ∧ fresh u.ch.rxAckPack.rxWinEndIdx wire = [])
    (hclosed : u.ch.chan = false → u.ch.rxWin = []) : u.conveyed wire = u.returned ++ u.reader.got := by
  rw [Side.conveyed]
  cases hopen : u.ch.chan with
  | true =>
    obtain ⟨hwin, hfresh⟩ := hdrained hopen
    rw [hwin, if_pos rfl, hfresh]
    simp only [bytesOf, List.flatMap_nil, List.append_nil]
  | false =>
    rw [hclosed hopen, if_neg Bool.false_ne_true]
    simp only [bytesOf, List.flatMap_nil, List.append_nil]

end

/-! ### The condition -/

def Packet.isData : Packet → Bool
  | .data .. => true
  | _ => false

/-- All that was sent to the endpoint has been read. -/
def Drained (n : Net) (q : Peer) : Prop :=
  (n.side q).ch.chan = true → (n.side q).ch.rxWin = [] ∧ ∀ pkt ∈ n.flight q.other, pkt.isData = false

/-- The reader comes first: its channel is closed only where all that was sent to it has been read, no read has thrown, the
other side sends only as long as it is open, and a `write` is counted by its 32 bits. -/
def ReaderFirst (q : Peer) (n : Net) : Event → Prop
  | .close t => t = q → Drained n q
  | .closeTask t => t = q → Drained n q
  | .syn t _ expired => t = q → expired = true → Drained n q
  | .readWake t => t = q → (n.side q).ch.chan = true
  | .write t bytes => t = q.other → bytes.length < 2 ^ 32
  | .writeNext t => t = q.other → (n.side t).ch.chan = true → (n.side q).ch.chan = true
  | .writeWake t => t = q.other → (n.side t).ch.chan = true → (n.side q).ch.chan = true
  | _ => True

instance (n : Net) (q : Peer) : Decidable (Drained n q) := inferInstanceAs (Decidable (_ = _ → _ = _ ∧ ∀ pkt ∈ _, _ = _))

instance (q : Peer) (n : Net) : (e : Event) → Decidable (ReaderFirst q n e)
  | .close t => inferInstanceAs (Decidable (t = q → Drained n q))
  | .closeTask t => inferInstanceAs (Decidable (t = q → Drained n q))
  | .syn t _ expired => inferInstanceAs (Decidable (t = q → expired = true → Drained n q))
  | .readWake t => inferInstanceAs (Decidable (t = q → _ = _))
  | .write t bytes => inferInstanceAs (Decidable (t = q.other → bytes.length < 2 ^ 32))
  | .writeNext t => inferInstanceAs (Decidable (t = q.other → (n.side t).ch.chan = true → (n.side q).ch.chan = true))
  | .writeWake t => inferInstanceAs (Decidable (t = q.other → (n.side t).ch.chan = true → (n.side q).ch.chan = true))
  | .writeTimeout _ | .read .. | .retransmit _ | .deliver .. | .drop .. | .dup .. => isTrue trivial

private theorem fresh_of_noData {l : List Packet} (h : ∀ pkt ∈ l, pkt.isData = false) (e : Nat) : fresh e l = [] := by
  induction l with
  | nil => rfl
  | cons pkt l ih =>
    have hhead := h pkt List.mem_cons_self
    have htail := ih fun pkt' h' => h pkt' (List.mem_cons_of_mem _ h')
    cases pkt with
    | data => cases hhead
    | ack => exact htail
    | nack => exact htail
    | close => exact htail

theorem Peer.eq_or (t q : Peer) : t = q ∨ t = q.other := by
  cases t <;> cases q <;> first | exact .inl rfl | exact .inr rfl

def Conserved (kept : List UInt8) (q : Peer) (n : Net) : Prop :=
  Balanced kept (n.side q.other) (n.side q) (n.flight q.other)

section
variable {kept : List UInt8} {n n' : Net} {q t : Peer} {s' : Side} {sent : List Packet}

/-- The reader moves, or the writer. -/
theorem Conserved.put (hreader : t = q → Balanced kept (n.side q.other) s' (n.flight q.other))
    (hwriter : t = q.other → Balanced kept s' (n.side q) (n.flight q.other ++ sent)) : Conserved kept q (n.put t s' sent) := by
  rw [Conserved]
  rcases Peer.eq_or t q with rfl | rfl
  · rw [Net.put_side_other, Net.put_side, Net.put_flight_other]
    exact hreader rfl
  · have hside := Net.put_side_other n q.other s' sent
    rw [Peer.other_other] at hside
    rw [Net.put_side, Net.put_flight, hside]
    exact hwriter rfl

/-- A step that leaves the sending half of its endpoint alone, and the bytes that it receives. -/
theorem Conserved.put_same (h : Conserved kept q n) (ho : InOrder n) (hquiet : ∀ pkt ∈ sent, pkt.Quiet)
    (hs : s'.ch.chan = true → (n.side t).ch.chan = true ∧ s'.writer.unsent = (n.side t).writer.unsent ∧
      s'.passed = (n.side t).passed)
    (hu : t = q → s'.conveyed (n.flight q.other) = (n.side q).conveyed (n.flight q.other) ∧
      (s'.ch.chan = false → s'.ch.rxWin = [])) : Conserved kept q (n.put t s' sent) := by
  apply Conserved.put
  · rintro rfl
    exact Balanced.receiver h (hu rfl).1 (hu rfl).2
  · rintro rfl
    exact Balanced.sender h (ho.incoming q) hquiet hs

/-- The endpoint closes. -/
theorem Conserved.put_closed (h : Conserved kept q n) (ho : InOrder n) (hquiet : ∀ pkt ∈ sent, pkt.Quiet)
    (hdrained : t = q → Drained n q) (hchan : s'.ch.chan = false) (hwin : s'.ch.rxWin = [])
    (hreturned : s'.returned = (n.side t).returned) (hgot : s'.reader.got = (n.side t).reader.got) :
    Conserved kept q (n.put t s' sent) := by
  refine h.put_same ho hquiet (fun hopen => ?_) fun ht => ⟨?_, fun _ => hwin⟩
  · rw [hchan] at hopen
    cases hopen
  · subst ht
    have hbefore : (n.side t).conveyed (n.flight t.other) = (n.side t).returned ++ (n.side t).reader.got := by
      refine conveyed_closed (fun hopen => ?_) h.closed
      obtain ⟨hnil, hdata⟩ := hdrained rfl hopen
      exact ⟨hnil, fresh_of_noData hdata _⟩
    have hafter : s'.conveyed (n.flight t.other) = s'.returned ++ s'.reader.got := by
      refine conveyed_closed (fun hopen => ?_) fun _ => hwin
      rw [hchan] at hopen
      cases hopen
    rw [hbefore, hafter, hreturned, hgot]

theorem Conserved.read (h : Conserved kept q n) (ho : InOrder n) (len : Nat) :
    Conserved kept q (n.put t ((n.side t).readMore len (n.side t).reader.got) []) := by
  have hnone : ∀ pkt ∈ ([] : List Packet), pkt.Quiet := fun pkt hpkt => absurd hpkt List.not_mem_nil
  refine h.put_same ho hnone (fun hopen => ?_) fun ht => ?_
  · rw [Side.readMore] at hopen ⊢
    simp only at hopen ⊢
    split_ifs at hopen ⊢ <;> exact ⟨hopen, rfl, rfl⟩
  · subst ht
    obtain ⟨hsame, hchan, hnil⟩ := conveyed_readMore (ho.incoming t) h.closed len
    refine ⟨hsame, fun hfreed => hnil (h.closed ?_)⟩
    rw [← hchan]
    exact hfreed

theorem Conserved.syn (h : Conserved kept q n) (ho : InOrder n) (now : UInt64) (expired : Bool)
    (hdrained : t = q → expired = true → Drained n q) :
    Conserved kept q (n.handle t ((n.side t).ch.onSyn now expired)) := by
  cases expired with
  | true =>
    obtain ⟨hsent, hchan, hwin, -⟩ := Channel.onSyn_expired_frame now (n.side t).ch
    refine h.put_closed ho ?_ (fun ht => hdrained ht rfl) hchan hwin rfl (Reader.got_wake _ _)
    rw [hsent]
    exact fun pkt hpkt => absurd hpkt List.not_mem_nil
  | false =>
    obtain ⟨hkeeps, -, hrx⟩ := Channel.onSyn_alive_frame now (n.side t).ch
    refine h.put_same ho (onSyn_quiet ho now) (fun hopen => ⟨hkeeps.chan hopen, Writer.unsent_wake _ _, rfl⟩) fun ht => ?_
    subst ht
    refine ⟨conveyed_after hrx _, fun hfreed => ?_⟩
    show (Channel.onSyn now false (n.side t).ch).ch.rxWin = []
    rw [hrx.rxWin]
    exact h.closed (hrx.chan.symm.trans hfreed)

/-- A datagram reaches the reader. -/
theorem conveyed_recv {pkt : Packet} {left : List Packet} (ho : InOrder n) (hwire : n.flight q.other = pkt :: left)
    (hopen : (n.side q).ch.chan = true) (hno : pkt ≠ .close) :
    ((n.side q).after ((n.side q).ch.onRecv pkt)).conveyed left = (n.side q).conveyed (n.flight q.other) := by
  have hu := ho.incoming q
  rw [hwire] at hu ⊢
  obtain ⟨hconveys, -⟩ := hu hopen
  cases pkt with
  | data w seq payload idx =>
    obtain ⟨-, -, -, -, -, hbytes, -⟩ :=
      @Conveys.storeData _ _ _ ⟨w, seq, payload, 0, idx⟩ (Channel.advanceTx w (Channel.startSynTimer (n.side q).ch)) hconveys
        (by simp) (by simp)
    have hchan : ((n.side q).ch.onRecv (.data w seq payload idx)).ch.chan = true := (Channel.onRecv_chan _ _).trans hopen
    rw [Side.conveyed, Side.conveyed, Side.after]
    simp only [Reader.got_wake]
    rw [if_pos hchan, if_pos hopen]
    simp only [List.append_assoc]
    exact congrArg (fun l => (n.side q).returned ++ ((n.side q).reader.got ++ l)) hbytes
  | ack ap =>
    have hskip : (n.side q).conveyed (.ack ap :: left) = (n.side q).conveyed left := rfl
    rw [hskip]
    by_cases hflags : ap.flags = .ack
    · rw [Channel.onRecv, hflags]
      exact conveyed_after (Channel.handleAck_frame ap _).2.1 left
    · exact conveyed_after (Channel.onRecv_other hflags _).2.2.2.1 left
  | nack np =>
    obtain ⟨top, hqueue, -⟩ := hconveys.queue
    cases hqueue
  | close => exact absurd rfl hno

/-- A datagram reaches the reader or the writer. -/
theorem Conserved.deliver {pkt : Packet} {left : List Packet} (h : Conserved kept q n) (ho : InOrder n)
    (hwire : n.flight t.other = pkt :: left) : Conserved kept q (n.deliver t pkt left) := by
  rw [Conserved]
  rcases Peer.eq_or t q with rfl | rfl
  · -- the reader gets it
    have hflight : ∀ s' sent, (({ n with flight := Function.update n.flight t.other left } : Net).put t s' sent).flight t.other =
        left := by
      intro s' sent
      rw [Net.put_flight_other]
      exact Function.update_self ..
    simp only [Net.deliver]
    split_ifs with hopen
    · split
      · rw [hflight, Net.put_side_other, Net.put_side]
        refine Balanced.receiver h ?_ h.closed
        rw [hwire]
        rfl
      · rename_i hno
        rw [Net.handle, hflight, Net.put_side_other, Net.put_side]
        refine Balanced.receiver h (conveyed_recv ho hwire hopen hno) fun hfreed => ?_
        have hchan : ((n.side t).ch.onRecv pkt).ch.chan = (n.side t).ch.chan := Channel.onRecv_chan _ _
        exact absurd (hfreed.symm.trans (hchan.trans hopen)) Bool.false_ne_true
    · refine Balanced.receiver h ?_ h.closed
      rw [Side.conveyed, Side.conveyed, if_neg hopen, if_neg hopen]
  · -- the writer gets it, and the wire to the reader takes its answer
    have hwire' : Function.update n.flight q.other.other left q.other = n.flight q.other :=
      Function.update_of_ne q.other.other_ne.symm _ _
    have hmoves {s' : Side} {sent : List Packet} (hw : Balanced kept s' (n.side q) (n.flight q.other ++ sent)) :
        Conserved kept q (({ n with flight := Function.update n.flight q.other.other left } : Net).put q.other s' sent) := by
      apply Conserved.put
      · exact fun hq => absurd hq q.other_ne
      · intro _
        simp only [hwire']
        exact hw
    simp only [Net.deliver]
    split_ifs with hopen
    · split
      · refine hmoves (Balanced.sender h (ho.incoming q) ?_ fun hchan => ⟨hchan, rfl, rfl⟩)
        exact fun pkt hpkt => absurd hpkt List.not_mem_nil
      · refine hmoves (Balanced.sender h (ho.incoming q) ?_ fun _ => ⟨hopen, Writer.unsent_wake _ _, rfl⟩)
        exact onRecv_quiet ho hwire hopen
    · simp only [hwire']
      exact h

theorem Conserved.dup {pkt : Packet} {i : Nat} (h : Conserved kept q n) (ho : InOrder n)
    (hsent : (n.flight t.other)[i]? = some pkt) (hlast : i + 1 = (n.flight t.other).length) :
    Conserved kept q { n with flight := Function.update n.flight t.other (n.flight t.other ++ [pkt]) } := by
  rw [Conserved]
  rcases Peer.eq_or t q with rfl | rfl
  · simp only [Function.update_self]
    refine Balanced.receiver h ?_ h.closed
    rw [Side.conveyed, Side.conveyed]
    split_ifs with hopen
    · obtain ⟨top, hqueue, -⟩ := (ho.incoming t hopen).1.queue
      obtain ⟨l, hwire⟩ := eq_append_of_last hsent hlast
      have hsplit := hqueue
      rw [hwire] at hsplit
      obtain ⟨mid, -, hcopy⟩ := hsplit.split
      rw [fresh_append hqueue, hcopy.twice.fresh_nil (Nat.le_refl _), List.append_nil]
    · rfl
  · simp only [Function.update_of_ne q.other.other_ne.symm]
    exact h

theorem Conserved.step {e : Event} (h : Conserved kept q n) (ho : InOrder n) (hok : Reliable n e) (hfirst : ReaderFirst q n e)
    (hs : n.step e = some n') : Conserved kept q n' := by
  have hnone : ∀ pkt ∈ ([] : List Packet), pkt.Quiet := fun pkt hpkt => absurd hpkt List.not_mem_nil
  -- a closed writer owes nothing, and a reader that does not move keeps its bytes
  have quiet {t : Peer} {s' : Side} (hs : s'.ch.chan = true → (n.side t).ch.chan = true ∧
      s'.writer.unsent = (n.side t).writer.unsent ∧ s'.passed = (n.side t).passed) (hch : s'.ch = (n.side t).ch)
      (hreturned : s'.returned = (n.side t).returned) (hgot : s'.reader.got = (n.side t).reader.got) :
      Conserved kept q (n.put t s' []) := by
    refine h.put_same ho hnone hs fun ht => ?_
    subst ht
    rw [Side.conveyed, Side.conveyed, hch, hreturned, hgot]
    exact ⟨rfl, h.closed⟩
  cases Net.takes_of_step hs with
  | @write t bytes _ hidle =>
    apply Conserved.put
    · rintro rfl
      exact Balanced.receiver h rfl h.closed
    · rintro rfl
      refine ⟨?_, fun hchan => ?_, h.closed⟩
      · rw [List.append_nil]
        exact h.kept
      · have hstream := h.stream hchan
        have hlen : bytes.length % 2 ^ 32 = bytes.length := Nat.mod_eq_of_lt (hfirst rfl)
        rw [hidle, Writer.unsent, List.append_nil] at hstream
        rw [List.append_nil, Side.startWrite, hlen, List.take_length, Writer.unsent_next, hstream]
  | @writeNext t rest _ hrunning =>
    apply Conserved.put
    · rintro rfl
      obtain ⟨hsame, hwin, hchan⟩ := writeNext_conveyed (n.side t) rest (n.flight t.other)
      refine Balanced.receiver h hsame fun hfreed => ?_
      rw [hwin]
      exact h.closed (hchan.symm.trans hfreed)
    · rintro rfl
      exact Balanced.writeNext h (ho.incoming q) hrunning (hfirst rfl)
  | @writeWake t dp rest _ hblocked hchan =>
    apply Conserved.put
    · rintro rfl
      obtain ⟨hsame, hwin, hfree⟩ := trySend_conveyed (n.side t) dp rest (n.flight t.other)
      refine Balanced.receiver h hsame fun hfreed => ?_
      rw [hwin]
      exact h.closed (hfree.symm.trans hfreed)
    · rintro rfl
      exact Balanced.trySend h (ho.incoming q) hblocked (hfirst rfl)
  | writeThrow _ _ hfreed => exact quiet (fun hopen => absurd (hfreed.symm.trans hopen) Bool.false_ne_true) rfl rfl rfl
  | writeTimeout => exact quiet (fun hopen => absurd (hok.symm.trans hopen) Bool.false_ne_true) rfl rfl rfl
  | @read t len _ hidle =>
    have hread := h.read ho (t := t) (len % 2 ^ 32)
    rw [hidle] at hread
    exact hread
  | @readWake t len got _ hblocked =>
    have hread := h.read ho (t := t) len
    rw [hblocked] at hread
    exact hread
  | @readThrow t len got _ hblocked hfreed =>
    refine h.put_same ho hnone (fun hopen => absurd (hfreed.symm.trans hopen) Bool.false_ne_true) fun ht => ?_
    subst ht
    exact absurd (hfreed.symm.trans (hfirst rfl)) Bool.false_ne_true
  | syn => exact h.syn ho _ _ hfirst
  | @retransmit t _ htask =>
    obtain ⟨hkeeps, -, hrx⟩ := Channel.retransmitStep_frame (n.side t).ch
    refine h.put_same ho (retransmitStep_quiet ho htask) (fun hopen => ?_) fun ht => ?_
    · exact ⟨hkeeps.chan hopen, Writer.unsent_wake _ _, rfl⟩
    · subst ht
      refine ⟨conveyed_after hrx _, fun hfreed => ?_⟩
      show (n.side t).ch.retransmitStep.ch.rxWin = []
      rw [hrx.rxWin]
      exact h.closed (hrx.chan.symm.trans hfreed)
  | close =>
    exact h.put_closed ho (close_quiet _ _) hfirst rfl rfl rfl (Reader.got_wake _ _)
  | closeTask => exact h.put_closed ho hnone hfirst rfl rfl rfl (Reader.got_wake _ _)
  | @deliver t i pkt _ hsent =>
    obtain rfl : i = 0 := hok
    cases hwire : n.flight t.other with
    | nil =>
      rw [hwire] at hsent
      cases hsent
    | cons pkt' left =>
      rw [hwire] at hsent
      cases hsent
      exact h.deliver ho hwire
  | drop => exact hok.elim
  | dup hsent => exact h.dup ho hsent hok

end

/-! ### The reader goes on -/

/-- What the reader can do without throwing: it gets the next datagram, reads a byte, or goes on with a read that waits. -/
def GoesOn (q : Peer) (n : Net) (e : Event) : Prop :=
  e = .deliver q 0 ∨ e = .read q 1 ∨ e = .readWake q ∧ (n.side q).ch.chan = true

instance (q : Peer) (n : Net) (e : Event) : Decidable (GoesOn q n e) := inferInstanceAs (Decidable (_ ∨ _ ∨ _))

def Obtainable (kept : List UInt8) (q : Peer) (n : Net) : Prop :=
  ∃ es n', Guarded Net.step (GoesOn q) n es ∧ run Net.step n es = some n' ∧
    kept <+: (n'.side q).returned ++ (n'.side q).reader.got

section
variable {kept : List UInt8} {n : Net} {q : Peer}

theorem Obtainable.of_step {n' : Net} {e : Event} (h : Obtainable kept q n') (he : GoesOn q n e) (hs : n.step e = some n') :
    Obtainable kept q n := by
  obtain ⟨es, n'', hg, hr, hkept⟩ := h
  exact ⟨e :: es, n'', hg.cons_of he hs, run_cons_of hs hr, hkept⟩

/-- Nothing is left in the window and on the wire. -/
theorem Obtainable.of_empty (h : Conserved kept q n) (hwin : bytesOf (n.side q).ch.rxWin = [])
    (hwire : n.flight q.other = []) : Obtainable kept q n := by
  refine ⟨[], n, trivial, rfl, ?_⟩
  have hkept := h.kept
  rw [Side.conveyed, hwin, hwire] at hkept
  simpa only [fresh, ite_self, List.append_nil] using hkept

/-- One byte is read from a window that has some. -/
theorem readMore_one {u : Side} (h : Gapless u.ch) (hsome : bytesOf u.ch.rxWin ≠ []) :
    (u.readMore 1 []).reader = .idle ∧ (bytesOf (u.readMore 1 []).ch.rxWin).length < (bytesOf u.ch.rxWin).length := by
  have hoff := readLoop_readOff 1 h.row h.startSeq
  have hbytes := hoff.bytes
  have hlength := hoff.length
  have hdone : (Channel.readLoop u.ch.rxAckPack u.ch.rxWin 1).2.1 = 0 := by
    by_contra hmore
    have hnil := hoff.rest.resolve_left hmore
    have hnone : (Channel.readLoop u.ch.rxAckPack u.ch.rxWin 1).1 = [] := List.eq_nil_of_length_eq_zero (by omega)
    rw [hnone, hnil] at hbytes
    exact hsome hbytes
  have hch : (u.readMore 1 []).ch.rxWin = (Channel.readLoop u.ch.rxAckPack u.ch.rxWin 1).2.2.1 := by
    rw [Side.readMore]
    simp only [hdone, if_true]
  constructor
  · rw [Side.readMore]
    simp only [hdone, if_true]
  · have hsum := congrArg List.length hbytes
    rw [List.length_append] at hsum
    rw [hch]
    omega

/-- A reader that does not wait reads byte by byte. -/
theorem Obtainable.of_idle (ho : InOrder n) (h : Conserved kept q n) (hopen : (n.side q).ch.chan = true)
    (hidle : (n.side q).reader = .idle) (hwire : n.flight q.other = []) : Obtainable kept q n := by
  induction hk : (bytesOf (n.side q).ch.rxWin).length using Nat.strong_induction_on generalizing n with
  | _ k ih =>
    by_cases hnil : bytesOf (n.side q).ch.rxWin = []
    · exact .of_empty h hnil hwire
    obtain ⟨hconveys, -⟩ := ho.incoming q hopen
    obtain ⟨hidle', hless⟩ := readMore_one hconveys.gapless hnil
    have hs : n.step (.read q 1) = some (n.put q ((n.side q).readMore 1 []) []) := by
      simp only [Net.step, hconveys.calm.2.2, hidle, Bool.false_eq_true, if_false]
      rfl
    have hread := h.read ho (t := q) 1
    rw [hidle, Reader.got] at hread
    have hchan : ((n.side q).readMore 1 []).ch.chan = true := by
      rw [Side.readMore]
      simp only
      split_ifs <;> exact hopen
    refine .of_step ?_ (.inr (.inl rfl)) hs
    refine ih _ ?_ (ho.read 1 []) hread ?_ ?_ ?_ rfl
    · rw [Net.put_side]
      omega
    · rw [Net.put_side]
      exact hchan
    · rw [Net.put_side]
      exact hidle'
    · rw [Net.put_flight_other]
      exact hwire

/-- A reader that waits goes on where it was woken; else there is nothing to read. -/
theorem Obtainable.of_quiet (ho : InOrder n) (h : Conserved kept q n) (hopen : (n.side q).ch.chan = true)
    (hwire : n.flight q.other = []) : Obtainable kept q n := by
  obtain ⟨hconveys, -⟩ := ho.incoming q hopen
  cases hreader : (n.side q).reader with
  | idle => exact .of_idle ho h hopen hreader hwire
  | blocked len got woken =>
    cases woken with
    | false =>
      apply Obtainable.of_empty h _ hwire
      rw [hconveys.asleep len got hreader]
      rfl
    | true =>
      have hs : n.step (.readWake q) = some (n.put q ((n.side q).readMore len got) []) := by
        simp only [Net.step, hconveys.calm.2.2, hreader, hopen, Bool.false_eq_true, if_false, if_true]
      have hread := h.read ho (t := q) len
      rw [hreader, Reader.got] at hread
      have ho' : InOrder (n.put q ((n.side q).readMore len got) []) := ho.read len got
      have hchan : ((n.put q ((n.side q).readMore len got) []).side q).ch.chan = true := by
        rw [Net.put_side, Side.readMore]
        simp only
        split_ifs <;> exact hopen
      have hwire' : (n.put q ((n.side q).readMore len got) []).flight q.other = [] := by
        rw [Net.put_flight_other]
        exact hwire
      refine .of_step ?_ (.inr (.inr ⟨rfl, hopen⟩)) hs
      -- the read has returned, or it waits again with an empty window
      cases hreader' : ((n.put q ((n.side q).readMore len got) []).side q).reader with
      | idle => exact .of_idle ho' hread hchan hreader' hwire'
      | blocked len' got' woken' =>
        obtain rfl : woken' = false := by
          rw [Net.put_side, Side.readMore] at hreader'
          simp only at hreader'
          split_ifs at hreader'
          cases hreader'
          rfl
        apply Obtainable.of_empty hread _ hwire'
        rw [(ho'.incoming q hchan).1.asleep len' got' hreader']
        rfl

private theorem deliver_flight (n : Net) (q : Peer) (pkt : Packet) (left : List Packet) :
    (n.deliver q pkt left).flight q.other = left := by
  simp only [Net.deliver]
  split_ifs
  · split
    · rw [Net.put_flight_other]
      exact Function.update_self ..
    · rw [Net.handle, Net.put_flight_other]
      exact Function.update_self ..
  · exact Function.update_self ..

/-- As long as its channel is not closed, the reader can get all that was sent. -/
theorem Obtainable.of_open (ho : InOrder n) (h : Conserved kept q n) (hopen : (n.side q).ch.chan = true) :
    Obtainable kept q n := by
  induction hwire : n.flight q.other generalizing n with
  | nil => exact .of_quiet ho h hopen hwire
  | cons pkt left ih =>
    obtain ⟨hconveys, -⟩ := ho.incoming q hopen
    have hs : n.step (.deliver q 0) = some (n.deliver q pkt left) := by
      simp only [Net.step, hconveys.calm.2.2, hwire, Bool.false_eq_true, if_false, List.getElem?_cons_zero, Option.map_some,
        List.eraseIdx_cons_zero]
    have hchan : ((n.deliver q pkt left).side q).ch.chan = true :=
      Net.deliver_at (P := fun s => s.ch.chan = true) hopen left (fun _ => hopen)
        fun _ _ => (Channel.onRecv_chan _ _).trans hopen
    refine .of_step ?_ (.inl rfl) hs
    exact ih (ho.deliver hwire) (h.deliver ho hwire) hchan (deliver_flight n q pkt left)

end

/-! ### Graceful close -/

/-- The runs in question: a network that neither loses nor reorders, and a reader that comes first. -/
def Graceful (q : Peer) (n : Net) (e : Event) : Prop := Reliable n e ∧ ReaderFirst q n e

instance (q : Peer) (n : Net) (e : Event) : Decidable (Graceful q n e) := inferInstanceAs (Decidable (_ ∧ _))

section
variable {q : Peer}

private theorem conserved_run {kept : List UInt8} {n n' : Net} {es : List Event} (h : InOrder n ∧ Conserved kept q n)
    (hg : Guarded Net.step (Graceful q) n es) (hr : run Net.step n es = some n') : InOrder n' ∧ Conserved kept q n' :=
  invariant_of_guarded (fun n => InOrder n ∧ Conserved kept q n)
    (fun _ _ _ h hok hs => ⟨h.1.step hok.1 hs, h.2.step h.1 hok.1 hok.2 hs⟩) h hg hr

theorem conserved_init (mwp : Peer → BitVec 16) (q : Peer) : Conserved [] q (Net.init mwp) :=
  ⟨List.nil_prefix, fun _ => rfl, fun _ => rfl⟩

/-- In every run where the reader comes first, and in every state it reaches after `write` has returned and the writer has
called `close`: the reader has got all that was written, or it can, before a read throws. -/
theorem read_before_close (mwp : Peer → BitVec 16) (hm : ∀ p, (mwp p).toNat < 2 ^ 15) (es es' : List Event) (n n' : Net)
    (hg : Guarded Net.step (Graceful q) (Net.init mwp) (es ++ .close q.other :: es'))
    (hr : run Net.step (Net.init mwp) es = some n) (hopen : (n.side q.other).ch.chan = true)
    (hreturned : (n.side q.other).writer = .idle) (hr' : run Net.step n (.close q.other :: es') = some n') :
    ((n'.side q).ch.chan = false → (n.side q.other).passed <+: (n'.side q).returned ++ (n'.side q).reader.got) ∧
    Obtainable (n.side q.other).passed q n' := by
  obtain ⟨hg₁, hg₂⟩ := hg.of_append
  have hbefore := conserved_run ⟨InOrder.init hm, conserved_init mwp q⟩ hg₁ hr
  -- all that was written is on its way
  have hall : Conserved (n.side q.other).passed q n := by
    have hstream := hbefore.2.stream hopen
    rw [hreturned, Writer.unsent, List.append_nil] at hstream
    exact { hbefore.2 with kept := hstream ▸ List.prefix_refl _ }
  obtain ⟨ho, hafter⟩ := conserved_run ⟨hbefore.1, hall⟩ (hg₂ n hr) hr'
  have hclosed (hfreed : (n'.side q).ch.chan = false) :
      (n.side q.other).passed <+: (n'.side q).returned ++ (n'.side q).reader.got := by
    have hkept := hafter.kept
    rw [conveyed_closed (fun hopen => absurd (hfreed.symm.trans hopen) Bool.false_ne_true) hafter.closed] at hkept
    exact hkept
  refine ⟨hclosed, ?_⟩
  cases hchan : (n'.side q).ch.chan with
  | true => exact .of_open ho hafter hchan
  | false => exact ⟨[], n', trivial, rfl, hclosed hchan⟩

end

/-- One byte is written, and `write` has returned. -/
def oneByte : List Event := [.write .a [1], .writeNext .a]

theorem read_before_close_byte : ∃ n n', run Net.step (Net.init fun _ => 4096) oneByte = some n ∧
    run Net.step n [.close .a, .deliver .b 0, .read .b 1, .deliver .b 0, .closeTask .b] = some n' ∧
    (n.side .a).passed = [1] ∧ (n'.side .b).ch.chan = false ∧
    (n.side .a).passed <+: (n'.side .b).returned ++ (n'.side .b).reader.got := by
  have hrun : ∃ n, n ∈ run Net.step (Net.init fun _ => 4096) oneByte ∧ (n.side .a).ch.chan = true ∧
      (n.side .a).writer = .idle ∧ (n.side .a).passed = [1] ∧
      ∃ n', n' ∈ run Net.step n [.close .a, .deliver .b 0, .read .b 1, .deliver .b 0, .closeTask .b] ∧
        (n'.side .b).ch.chan = false := by decide +kernel
  obtain ⟨n, hn, hopen, hidle, hpassed, n', hn', hchan⟩ := hrun
  have hread := (read_before_close (q := .b) (fun _ => 4096) (fun _ => by decide) oneByte _ n n' (by decide +kernel) hn hopen
    hidle hn').1 hchan
  exact ⟨n, n', hn, hn', hpassed, hchan, hread⟩

/-! ### A channel that is closed -/

/-- A closed channel that has given the reader at most these bytes. -/
structure Frozen (most : List UInt8) (u : Side) : Prop where
  freed : u.ch.chan = false
  win : u.ch.rxWin = []
  most : u.returned ++ u.reader.got <+: most

section
variable {most : List UInt8} {u u' : Side}

theorem Frozen.after {o : Outcome} (h : Frozen most u) (hchan : o.ch.chan = false) (hwin : o.ch.rxWin = []) :
    Frozen most (u.after o) := by
  refine ⟨hchan, hwin, ?_⟩
  rw [Side.after, Reader.got_wake]
  exact h.most

theorem Frozen.of_rx {o : Outcome} (h : Frozen most u) (hrx : Channel.SameRx u.ch o.ch) : Frozen most (u.after o) :=
  h.after (hrx.chan.trans h.freed) (hrx.rxWin.trans h.win)

/-- The same channel, and a read that has not returned more. -/
theorem Frozen.same (h : Frozen most u) (hch : u'.ch.chan = u.ch.chan) (hwin : u'.ch.rxWin = u.ch.rxWin)
    (hreturned : u'.returned ++ u'.reader.got <+: u.returned ++ u.reader.got) : Frozen most u' :=
  ⟨hch.trans h.freed, hwin.trans h.win, hreturned.trans h.most⟩

theorem Frozen.trySend (h : Frozen most u) (dp : DataPacket) (rest : List UInt8) : Frozen most (u.trySend dp rest).1 := by
  rw [Side.trySend]
  split_ifs <;> exact h.same rfl rfl (List.prefix_refl _)

theorem Frozen.writeNext (h : Frozen most u) (rest : List UInt8) : Frozen most (u.writeNext rest).1 := by
  have htaken : Frozen most { u with
      ch := (u.ch.takePacket (rest.take maxPayload)).1
      chunks := u.chunks ++ [rest.take maxPayload] } := h.same rfl rfl (List.prefix_refl _)
  exact htaken.trySend _ _

theorem Frozen.readMore (h : Frozen most u) (len : Nat) : Frozen most (u.readMore len u.reader.got) := by
  have hmost := h.most
  rw [Side.readMore, h.win]
  simp only [Channel.readLoop, List.append_nil]
  split_ifs
  · refine ⟨h.freed, rfl, ?_⟩
    simpa only [Reader.got, List.append_nil] using hmost
  · exact ⟨h.freed, rfl, hmost⟩

end

/-- A closed channel gives the reader nothing, whatever happens. -/
theorem Frozen.step {most : List UInt8} {n n' : Net} {q : Peer} {e : Event} (h : Frozen most (n.side q))
    (hs : n.step e = some n') : Frozen most (n'.side q) := by
  cases Net.takes_of_step hs with
  | write =>
    apply Net.put_at h
    rintro rfl
    exact h.same rfl rfl (List.prefix_refl _)
  | writeNext =>
    apply Net.put_at h
    rintro rfl
    exact h.writeNext _
  | writeWake =>
    apply Net.put_at h
    rintro rfl
    exact h.trySend _ _
  | writeThrow =>
    apply Net.put_at h
    rintro rfl
    exact h.same rfl rfl (List.prefix_refl _)
  | writeTimeout =>
    apply Net.put_at h
    rintro rfl
    exact h.same rfl rfl (List.prefix_refl _)
  | @read t len _ hidle =>
    apply Net.put_at h
    rintro rfl
    have hread := h.readMore (len % 2 ^ 32)
    rw [hidle] at hread
    exact hread
  | @readWake t len got _ hblocked =>
    apply Net.put_at h
    rintro rfl
    have hread := h.readMore len
    rw [hblocked] at hread
    exact hread
  | readThrow =>
    apply Net.put_at h
    rintro rfl
    refine h.same rfl rfl ?_
    rw [Reader.got, List.append_nil]
    exact List.prefix_append _ _
  | @syn t now expired =>
    apply Net.put_at h
    rintro rfl
    cases expired with
    | true => exact h.after rfl rfl
    | false => exact h.of_rx (Channel.onSyn_alive_frame now _).2.2
  | retransmit =>
    apply Net.put_at h
    rintro rfl
    exact h.of_rx (Channel.retransmitStep_frame _).2.2
  | close =>
    apply Net.put_at h
    rintro rfl
    exact h.after rfl rfl
  | closeTask =>
    apply Net.put_at h
    rintro rfl
    exact (h.after (o := Channel.close false _) rfl rfl).same rfl rfl (List.prefix_refl _)
  | deliver =>
    apply Net.deliver_at h
    · rintro rfl
      exact h.same rfl rfl (List.prefix_refl _)
    · rintro rfl hopen
      exact absurd (h.freed.symm.trans hopen) Bool.false_ne_true
  | drop => exact h
  | dup => exact h

theorem Frozen.run {most : List UInt8} {n n' : Net} {q : Peer} {es : List Event} (h : Frozen most (n.side q))
    (hr : run Net.step n es = some n') : Frozen most (n'.side q) :=
  invariant_of_step (fun n : Net => Frozen most (n.side q)) (fun _ _ _ h hs => h.step hs) h hr

/-- The data and the close packet arrive in order, and the posted close runs before the read: no run reads the byte. -/
theorem read_after_close :
    ∃ n n', Guarded Net.step Reliable (Net.init fun _ => 4096)
      (oneByte ++ [.close .a, .deliver .b 0, .deliver .b 0, .closeTask .b]) ∧
    run Net.step (Net.init fun _ => 4096) oneByte = some n ∧ (n.side .a).ch.chan = true ∧ (n.side .a).writer = .idle ∧
    (n.side .a).passed = [1] ∧ run Net.step n [.close .a, .deliver .b 0, .deliver .b 0, .closeTask .b] = some n' ∧
    ∀ es n'', run Net.step n' es = some n'' → ¬ (n.side .a).passed <+: (n''.side .b).returned ++ (n''.side .b).reader.got := by
  have hrun : ∃ n, n ∈ run Net.step (Net.init fun _ => 4096) oneByte ∧ (n.side .a).ch.chan = true ∧
      (n.side .a).writer = .idle ∧ (n.side .a).passed = [1] ∧
      ∃ n', n' ∈ run Net.step n [.close .a, .deliver .b 0, .deliver .b 0, .closeTask .b] ∧
        (n'.side .b).ch.chan = false ∧ (n'.side .b).ch.rxWin = [] ∧ (n'.side .b).returned = [] ∧
        (n'.side .b).reader = .idle := by decide +kernel
  obtain ⟨n, hn, hopen, hidle, hpassed, n', hn', hchan, hwin, hreturned, hreader⟩ := hrun
  refine ⟨n, n', by decide +kernel, hn, hopen, hidle, hpassed, hn', fun es n'' hr => ?_⟩
  have hfrozen : Frozen [] (n'.side .b) := by
    refine ⟨hchan, hwin, ?_⟩
    rw [hreturned, hreader]
    exact List.prefix_refl _
  rw [hpassed, List.prefix_nil.mp (hfrozen.run hr).most]
  exact fun hprefix => absurd (List.prefix_nil.mp hprefix) (List.cons_ne_nil _ _)

end Tornet.Udt
