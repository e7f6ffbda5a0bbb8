import Tornet.Udt.Network

/-! Writes that no ack answers: a blocked `write` gives up after its timeout but keeps
the sequence number it took, so the numbers run ahead of the acknowledged window and
turn around. -/
namespace Tornet.Udt
open Library Runs

/-- Entering `write` and the first turn of its loop, for a buffer that counts as not empty. -/
theorem run_write {n : Net} {p : Peer} {bytes : List UInt8} (hx : (n.side p).ch.exited = false)
    (hw : (n.side p).writer = .idle) (hb : bytes ≠ []) (hl : bytes.length < 2 ^ 32) :
    run Net.step n [.write p bytes, .writeNext p] =
      some (n.put p (((n.side p).startWrite bytes).writeNext bytes).1
        (((n.side p).startWrite bytes).writeNext bytes).2) := by
  have hstart : ((n.side p).startWrite bytes).writer = .running bytes := by
    simp only [Side.startWrite, Nat.mod_eq_of_lt hl, List.take_length, Writer.next, if_neg hb]
  have hch : ((n.side p).startWrite bytes).ch = (n.side p).ch := rfl
  simp [run, Net.step, hx, hw, hstart, hch]

/-- One-byte writes that each find the window full, give up after their timeout and keep the
number they took. -/
def stalledWrites : Nat → List Event
  | 0 => []
  | j + 1 => stalledWrites j ++ [.write .a [0], .writeNext .a, .writeTimeout .a]

/-- The sender after `j` of them. -/
def Side.stalled (s : Side) (j : Nat) : Side :=
  { s with
    ch := { s.ch with nextTxSeq := s.ch.nextTxSeq + seqOf j, nextTxIdx := s.ch.nextTxIdx + j }
    chunks := s.chunks ++ List.replicate j [0]
    passed := s.passed ++ List.replicate j 0 }

theorem run_stalledWrite {n : Net} (hidle : (n.side .a).writer = .idle)
    (halive : (n.side .a).ch.exited = false)
    (hfull : SeqNum.lt ((n.side .a).ch.nextTxSeq + 1)
      ((n.side .a).ch.lastRxAck.rxWinStart + (n.side .a).ch.txWinSize) = false) (byte : UInt8) :
    run Net.step n [.write .a [byte], .writeNext .a, .writeTimeout .a] =
      some (n.put .a { n.side .a with
        ch := ((n.side .a).ch.takePacket [byte]).1
        chunks := (n.side .a).chunks ++ [[byte]]
        passed := (n.side .a).passed ++ [byte] } []) := by
  have hrun := run_write halive hidle (List.cons_ne_nil byte []) (by simp)
  have hsend : ((n.side .a).ch.takePacket [byte]).1.canSend = false := hfull
  have hwait : ((n.side .a).startWrite [byte]).writeNext [byte] =
      ({ (n.side .a).startWrite [byte] with
        ch := ((n.side .a).ch.takePacket [byte]).1, chunks := (n.side .a).chunks ++ [[byte]],
        writer := .blocked ((n.side .a).ch.takePacket [byte]).2 [] false }, []) :=
    if_neg (by simp [Side.startWrite, maxPayload, hsend])
  rw [hwait] at hrun
  have hx : ((n.side .a).ch.takePacket [byte]).1.exited = false := halive
  have hstep := run_snoc_of (e := .writeTimeout .a) (u := n.put .a { n.side .a with
        ch := ((n.side .a).ch.takePacket [byte]).1
        chunks := (n.side .a).chunks ++ [[byte]]
        passed := (n.side .a).passed ++ [byte] } []) hrun (by simp [Net.step, hx, Side.startWrite, hidle])
  exact hstep

theorem run_stalledWrites {n : Net} (hidle : (n.side .a).writer = .idle)
    (halive : (n.side .a).ch.exited = false) (j : Nat)
    (hfull : ∀ i < j, SeqNum.lt ((n.side .a).ch.nextTxSeq + seqOf (i + 1))
      ((n.side .a).ch.lastRxAck.rxWinStart + (n.side .a).ch.txWinSize) = false) :
    run Net.step n (stalledWrites j) = some (n.put .a ((n.side .a).stalled j) []) := by
  induction j with
  | zero =>
    have hz : (n.side .a).stalled 0 = n.side .a := by simp [Side.stalled, seqOf, Circular.wrap]
    simp [stalledWrites, Net.put, hz]
  | succ j ih =>
    have ih := ih fun i hi => hfull i (by omega)
    apply run_append_of ih
    rw [run_stalledWrite (by rw [Net.put_side]; exact hidle) (by rw [Net.put_side]; exact halive)]
    · simp only [Net.put_side, Net.put_put, List.append_nil]
      simp only [Side.stalled, Channel.takePacket, List.append_assoc, List.replicate_succ', BitVec.add_assoc,
        SeqNum.seqOf_succ, Nat.add_assoc]
    · rw [Net.put_side]
      simp only [Side.stalled, BitVec.add_assoc, ← SeqNum.seqOf_succ]
      exact hfull j (by omega)

/-- A guard that lets these events pass in every state. -/
theorem guarded_stalledWrites {ok : Net → Event → Prop} (n : Net) (j : Nat)
    (h : ∀ t e, e = .write .a [0] ∨ e = .writeNext .a ∨ e = .writeTimeout .a → ok t e) :
    Guarded Net.step ok n (stalledWrites j) := by
  apply guarded_of_forall
  intro e he t
  induction j with
  | zero => cases he
  | succ j ih =>
    rcases List.mem_append.mp he with he | he
    · exact ih he
    · exact h t e (by simpa using he)

/-- One byte written while no ack ever arrives: packet `k + 1` goes out if the circular
comparison lets it, and its `write` gives up after the timeout otherwise. -/
def unackedWrite (k : Nat) (byte : UInt8) : List Event :=
  [.write .a [byte], .writeNext .a] ++
    if SeqNum.lt (seqOf (k + 1)) 2 then [] else [.writeTimeout .a]

/-- The sender after `k` one-byte writes of which no ack came back. -/
structure Unacked (k : Nat) (s : Side) : Prop where
  idle : s.writer = .idle
  alive : s.ch.exited = false
  chan : s.ch.chan = true
  window : s.ch.lastRxAck.rxWinStart + s.ch.txWinSize = 2
  seq : s.ch.nextTxSeq = seqOf k
  idx : s.ch.nextTxIdx = k
  start : s.ch.rxAckPack.rxWinStart = 1

theorem Unacked.write {k : Nat} {n : Net} (h : Unacked k (n.side .a)) (byte : UInt8) :
    ∃ s sent, run Net.step n (unackedWrite k byte) = some (n.put .a s sent) ∧ Unacked (k + 1) s ∧
      s.passed = (n.side .a).passed ++ [byte] ∧
      (SeqNum.lt (seqOf (k + 1)) 2 = true → sent = [.data 1 (seqOf (k + 1)) [byte] (k + 1)]) := by
  obtain ⟨idle, alive, chan, window, seq, idx, start⟩ := h
  have hn : (n.side .a).ch.nextTxSeq + 1 = seqOf (k + 1) := by rw [seq, SeqNum.seqOf_succ]
  have hi : (n.side .a).ch.nextTxIdx + 1 = k + 1 := by rw [idx]
  have hrun := run_write alive idle (List.cons_ne_nil byte []) (by simp)
  have hsend : ((n.side .a).ch.takePacket [byte]).1.canSend = SeqNum.lt (seqOf (k + 1)) 2 := by
    simp only [Channel.takePacket, Channel.canSend, window, hn]
  rw [unackedWrite]
  cases hs : SeqNum.lt (seqOf (k + 1)) 2 with
  | false =>
    have hfull : SeqNum.lt ((n.side .a).ch.nextTxSeq + 1)
        ((n.side .a).ch.lastRxAck.rxWinStart + (n.side .a).ch.txWinSize) = false := by rw [hn, window, hs]
    exact ⟨_, [], run_stalledWrite idle alive hfull byte, ⟨idle, alive, chan, window, hn, hi, start⟩, rfl,
      (by simp)⟩
  | true =>
    rw [hs] at hsend
    have hgo : ((n.side .a).startWrite [byte]).writeNext [byte] =
        ({ (n.side .a).startWrite [byte] with
          ch := (((n.side .a).ch.takePacket [byte]).1.sendPacket ((n.side .a).ch.takePacket [byte]).2).1,
          chunks := (n.side .a).chunks ++ [[byte]],
          writer := if (n.side .a).ch.chan then Writer.next [] else .idle },
        (((n.side .a).ch.takePacket [byte]).1.sendPacket ((n.side .a).ch.takePacket [byte]).2).2) :=
      if_pos hsend
    rw [hgo, chan, if_pos rfl] at hrun
    refine ⟨_, _, hrun, ⟨rfl, alive, chan, window, hn, hi, start⟩, rfl, fun _ => ?_⟩
    simp only [Channel.sendPacket, Channel.takePacket, chan, if_true, Channel.dataPacket, hn, hi, start]

/-- The first `k` writes, all of the byte 0. -/
def unackedWrites : Nat → List Event
  | 0 => []
  | k + 1 => unackedWrites k ++ unackedWrite k 0

theorem run_unackedWrites (k : Nat) : ∃ s sent,
    run Net.step (Net.init fun _ => 4096) (unackedWrites k) =
      some ((Net.init fun _ => 4096).put .a s sent) ∧ Unacked k s ∧ s.passed = List.replicate k 0 := by
  induction k with
  | zero =>
    refine ⟨(Net.init fun _ => 4096).side .a, [], ?_, ⟨rfl, rfl, rfl, rfl, rfl, rfl, rfl⟩, rfl⟩
    simp [unackedWrites, Net.put]
  | succ k ih =>
    obtain ⟨s, sent, hrun, hs, hp⟩ := ih
    obtain ⟨s', sent', hrun', hs', hp', -⟩ :=
      Unacked.write (n := (Net.init fun _ => 4096).put .a s sent) (k := k) (by simpa using hs) 0
    refine ⟨s', sent ++ sent', run_append_of hrun (by simpa using hrun'), hs', ?_⟩
    rw [hp', Net.put_side, hp, List.replicate_succ']

private theorem onRecv_first (byte : UInt8) (idx : Nat) :
    ∃ o : Outcome, (Channel.init 4096).onRecv (.data 1 1 [byte] idx) = o ∧ o.ch.exited = false ∧
      o.ch.rxAckPack.rxWinStart = 1 ∧
      o.ch.rxWin = [{ rxWinStart := 1, seq := 1, data := [byte], idx := idx }] := by
  have hfits : SeqNum.gt 1#16 4097#16 = false := by decide
  refine ⟨_, rfl, ?_, ?_, ?_⟩ <;>
    simp [Channel.onRecv, Channel.handleData, Channel.storeData, Channel.init, Channel.advanceTx,
      Channel.startSynTimer, MissList.remove, hfits]

/-- A fresh receiver given a packet numbered 1 returns its byte to the first read. -/
theorem run_deliver_read {n : Net} {i idx : Nat} {byte : UInt8}
    (hb : n.side .b = { ch := Channel.init 4096 })
    (hi : (n.flight .a)[i]? = some (.data 1 1 [byte] idx)) :
    ∃ n', run Net.step n [.deliver .b i, .read .b 1] = some n' ∧
      n'.side .a = n.side .a ∧ (n'.side .b).returned = [byte] := by
  obtain ⟨o, ho, hx, hstart, hwin⟩ := onRecv_first byte idx
  have hd : n.step (.deliver .b i) =
      some (Net.handle { n with flight := Function.update n.flight .a ((n.flight .a).eraseIdx i) } .b o) := by
    have hc : (Channel.init 4096).chan = true := rfl
    have he : (Channel.init 4096).exited = false := rfl
    simp only [Net.step, Net.deliver, Peer.other, hb, hc, he, hi, ho, if_true, Bool.false_eq_true, if_false,
      Option.map_some]
  simp only [run, hd, Option.bind_some]
  refine ⟨_, by simp [Net.step, Net.handle, Side.after, hb, hx, Reader.wake]; rfl, ?_, ?_⟩
  · exact Net.put_side_other _ .b ..
  · simp [Side.readMore, hstart, hwin, Channel.readLoop]

/-- A fresh receiver takes any data packet for young. -/
theorem youngData_init {n : Net} {i : Nat} (hb : n.side .b = { ch := Channel.init 4096 }) :
    YoungData n (.deliver .b i) := by
  intro w seq payload idx _
  rw [hb]
  have hsize : (Channel.init 4096).rxAckPack.rxWinSize.toNat = 4096 := rfl
  have hend : (Channel.init 4096).rxAckPack.rxWinEndIdx = 0 := rfl
  simp only [hsize, hend]
  omega

theorem mem_unackedWrite {k : Nat} {byte : UInt8} {e : Event} (h : e ∈ unackedWrite k byte) :
    e = .write .a [byte] ∨ e = .writeNext .a ∨ e = .writeTimeout .a := by
  unfold unackedWrite at h
  split_ifs at h <;> simp at h <;> tauto

private theorem mem_unackedWrites {k : Nat} {e : Event} (h : e ∈ unackedWrites k) :
    e = .write .a [0] ∨ e = .writeNext .a ∨ e = .writeTimeout .a := by
  induction k with
  | zero => cases h
  | succ k ih =>
    rcases List.mem_append.mp h with h | h
    · exact ih h
    · exact mem_unackedWrite h

/-- Once the sender's numbers stand before 1, the next byte it writes is the first one a
fresh receiver returns. -/
theorem Unacked.run_read {k : Nat} {n : Net} (h : Unacked k (n.side .a))
    (hb : n.side .b = { ch := Channel.init 4096 }) (hk : seqOf (k + 1) = 1) :
    ∃ n', run Net.step n (unackedWrite k 1 ++ [.deliver .b (n.flight .a).length, .read .b 1]) = some n' ∧
      Guarded Net.step YoungData n (unackedWrite k 1 ++ [.deliver .b (n.flight .a).length, .read .b 1]) ∧
      (n'.side .b).returned = [1] ∧ (n'.side .a).passed = (n.side .a).passed ++ [1] := by
  obtain ⟨s, sent, hrun, -, hp, hsent⟩ := h.write 1
  rw [hk] at hsent
  have hb' : (n.put .a s sent).side .b = { ch := Channel.init 4096 } :=
    (n.put_side_other .a s sent).trans hb
  obtain ⟨n', hread, hna, hnb⟩ := run_deliver_read (i := (n.flight .a).length) hb' (by
    rw [Net.put_flight, hsent (by decide)]
    exact List.getElem?_concat_length)
  have hyoung : Guarded Net.step YoungData (n.put .a s sent) [.deliver .b (n.flight .a).length, .read .b 1] :=
    ⟨youngData_init hb', fun _ _ => ⟨trivial, fun _ _ => trivial⟩⟩
  refine ⟨n', run_append_of hrun hread, Guarded.append_of (guarded_of_forall fun e he t => ?_) hrun hyoung, hnb,
    by rw [hna, Net.put_side, hp]⟩
  obtain rfl | rfl | rfl := mem_unackedWrite he <;> trivial

/-- The packet after a full turn of the number space is read in place of the first. -/
theorem run_overrun {k : Nat} (hk : seqOf (k + 1) = 1) :
    ∃ es n, run Net.step (Net.init fun _ => 4096) es = some n ∧
      Guarded Net.step YoungData (Net.init fun _ => 4096) es ∧
      (∀ p bytes, Event.write p bytes ∈ es → bytes.length < 2 ^ 32) ∧
      (n.side .b).returned = [1] ∧ (n.side .a).passed = List.replicate k 0 ++ [1] := by
  obtain ⟨s, sent, hrun, hs, hp⟩ := run_unackedWrites k
  obtain ⟨n, hread, hg, hb, ha⟩ := Unacked.run_read (n := (Net.init fun _ => 4096).put .a s sent)
    (by rwa [Net.put_side]) (Net.put_side_other _ .a _ _) hk
  rw [Net.put_side, hp] at ha
  refine ⟨_, n, run_append_of hrun hread, Guarded.append_of (guarded_of_forall fun e he t => ?_) hrun hg, ?_, hb, ha⟩
  · obtain rfl | rfl | rfl := mem_unackedWrites he <;> trivial
  · intro p bytes he
    have hlen : bytes.length = 1 := by
      simp only [List.mem_append, List.mem_cons, List.not_mem_nil, or_false] at he
      obtain he | he | he | he := he
      · obtain h | h | h := mem_unackedWrites he <;> cases h
        rfl
      · obtain h | h | h := mem_unackedWrite he <;> cases h
        rfl
      · cases he
      · cases he
    omega

/-- A buffer whose length is a multiple of `2^32` is taken for an empty one. -/
theorem run_truncated (bytes : List UInt8) (hl : bytes.length % 2 ^ 32 = 0) :
    ∃ n, run Net.step (Net.init fun _ => 4096)
        [.write .a bytes, .write .a [1], .writeNext .a, .deliver .b 0, .read .b 1] = some n ∧
      Guarded Net.step YoungData (Net.init fun _ => 4096)
        [.write .a bytes, .write .a [1], .writeNext .a, .deliver .b 0, .read .b 1] ∧
      (n.side .b).returned = [1] ∧ (n.side .a).passed = bytes ++ [1] := by
  have hw : (Net.init fun _ => 4096).step (.write .a bytes) =
      some ((Net.init fun _ => 4096).put .a { ch := Channel.init 4096, passed := bytes } []) := by
    have he : (Channel.init 4096).exited = false := rfl
    simp only [Net.step, Net.init, he, Bool.false_eq_true, if_false, Side.startWrite, hl, List.take_zero,
      Writer.next, if_true, List.nil_append]
  obtain ⟨n, hrun, hg, hb, ha⟩ := Unacked.run_read (k := 0)
    (n := (Net.init fun _ => 4096).put .a { ch := Channel.init 4096, passed := bytes } [])
    (by rw [Net.put_side]; exact ⟨rfl, rfl, rfl, rfl, rfl, rfl, rfl⟩) (Net.put_side_other _ .a _ _) (by decide)
  rw [Net.put_side] at ha
  have hes : unackedWrite 0 1 = [.write .a [1], .writeNext .a] := by decide
  have hz : ((Net.init fun _ => 4096).flight .a ++ []).length = 0 := rfl
  simp only [hes, Net.put_flight, hz, List.cons_append, List.nil_append] at hrun hg
  exact ⟨n, run_cons_of hw hrun, Guarded.cons_of trivial hw hg, hb, ha⟩

theorem not_prefix_of_head {k : Nat} (hk : 0 < k) : ¬ [(1 : UInt8)] <+: List.replicate k 0 ++ [1] := by
  obtain ⟨j, rfl⟩ : ∃ j, k = j + 1 := ⟨k - 1, by omega⟩
  rw [List.replicate_succ, List.cons_append, List.cons_prefix_cons]
  exact fun h => absurd h.1 (by decide)

end Tornet.Udt
