import Tornet.Udt.Asking

/-! The retransmission task: when every number it pops from `tx_miss_list` is in
`tx_win`, and how stale acks and nacks, an overtaking window start, a close or a `write` that times out break that. -/
namespace Tornet.Udt
open Library Runs

namespace Channel

/-- Every listed number has a packet among `win`. -/
def Backed (win : List DataPacket) (l : MissList) : Prop :=
  ∀ seq, MissList.Listed l seq → ∃ d ∈ win, d.seq = seq

/-- What is waiting for retransmission is in `tx_win`, or nothing will pop it any more. -/
def MissSafe (c : Channel) : Prop :=
  c.exited = false ∧ (Backed c.txWin c.txMissList ∨ (c.chan = false ∧ c.retranTask = false))

variable {c c' : Channel}

theorem Backed.mono {win win' : List DataPacket} {l : MissList} (h : Backed win l)
    (hw : ∀ d ∈ win, ∃ d' ∈ win', d'.seq = d.seq) : Backed win' l := by
  intro seq hs
  obtain ⟨d, hd, hseq⟩ := h seq hs
  obtain ⟨d', hd', hseq'⟩ := hw d hd
  exact ⟨d', hd', hseq'.trans hseq⟩

theorem MissSafe.of_eq (h : MissSafe c) (hx : c'.exited = c.exited) (hw : c'.txWin = c.txWin)
    (hm : c'.txMissList = c.txMissList) (hc : c'.chan = c.chan) (ht : c'.retranTask = c.retranTask) :
    MissSafe c' := by
  rw [MissSafe, hx, hw, hm, hc, ht]
  exact h

theorem MissSafe.backed (h : MissSafe c) (hc : c.chan = true) : Backed c.txWin c.txMissList :=
  h.2.elim id fun hx => absurd hc (by simp [hx.1])

theorem MissSafe.sendPacket (h : MissSafe c) (dp : DataPacket) : MissSafe (sendPacket dp c).1 := by
  refine ⟨h.1, h.2.imp_left fun hb => hb.mono fun d hd => ⟨d, ?_, rfl⟩⟩
  exact List.mem_append_left _ hd

theorem MissSafe.close (h : MissSafe c) (sendClose : Bool)
    (hn : c.retranTask = true → ∀ seq, ¬ MissList.Listed c.txMissList seq) :
    MissSafe (close sendClose c).ch := by
  refine ⟨h.1, ?_⟩
  cases ht : c.retranTask with
  | false => exact .inr ⟨rfl, ht⟩
  | true => exact .inl fun seq hs => absurd hs (hn ht seq)

/-- `retransmit( false )` touches neither list. -/
theorem retransmit_lists (c : Channel) : (retransmit c).txWin = c.txWin ∧
    (retransmit c).txMissList = c.txMissList ∧ (retransmit c).exited = c.exited := by
  obtain ⟨_, _, h⟩ := retransmit_eq c
  rw [h]
  exact ⟨rfl, rfl, rfl⟩

private theorem storeData_lists (dp : DataPacket) (c : Channel) : (storeData dp c).ch.txWin = c.txWin ∧
    (storeData dp c).ch.txMissList = c.txMissList ∧ (storeData dp c).ch.exited = c.exited := by
  rw [storeData]
  simp only
  split_ifs <;> exact ⟨rfl, rfl, rfl⟩

private theorem startSynTimer_lists (c : Channel) : (startSynTimer c).txWin = c.txWin ∧
    (startSynTimer c).txMissList = c.txMissList ∧ (startSynTimer c).exited = c.exited := by
  rw [startSynTimer]
  split_ifs <;> exact ⟨rfl, rfl, rfl⟩

theorem MissSafe.handleData (h : MissSafe c) {dp : DataPacket}
    (hk : Backed (keptFrom dp.rxWinStart c) c.txMissList) : MissSafe (handleData dp c).ch := by
  obtain ⟨hw, hm, hx⟩ := storeData_lists dp (advanceTx dp.rxWinStart (startSynTimer c))
  obtain ⟨hw', hm', hx'⟩ := startSynTimer_lists c
  refine ⟨hx.trans (hx'.trans h.1), .inl ?_⟩
  have hwin : (Channel.handleData dp c).ch.txWin = keptFrom dp.rxWinStart c := by
    rw [Channel.handleData, hw, advanceTx, hw', keptFrom]
  have hmiss : (Channel.handleData dp c).ch.txMissList = c.txMissList := by
    rw [Channel.handleData, hm, advanceTx, hm']
  rw [hwin, hmiss]
  exact hk

private theorem handleAck_lists (ap : AckPacket) (c : Channel) :
    (handleAck ap c).ch.txWin = keptFrom ap.rxWinStart c ∧
      (handleAck ap c).ch.txMissList = ap.missedSeq ∧ (handleAck ap c).ch.exited = c.exited := by
  obtain ⟨st, tk, hret⟩ := retransmit_eq { c with decOnNack := true, txMissList := ap.missedSeq }
  rw [handleAck]
  simp only [hret]
  split_ifs <;> exact ⟨rfl, rfl, rfl⟩

private theorem handleNack_lists (np : NackPacket) (c : Channel) :
    (handleNack np c).ch.txWin = keptFrom np.rxWinStart c ∧
      (handleNack np c).ch.txMissList = c.txMissList.add np.startSeq np.endSeq ∧
      (handleNack np c).ch.exited = c.exited := by
  rw [handleNack]
  simp only
  obtain ⟨hw, hm, hx⟩ := retransmit_lists _
  rw [hw, hm, hx]
  split_ifs <;> exact ⟨rfl, rfl, rfl⟩

theorem MissSafe.handleAck (h : MissSafe c) {ap : AckPacket}
    (hk : Backed (keptFrom ap.rxWinStart c) ap.missedSeq) : MissSafe (handleAck ap c).ch := by
  obtain ⟨hw, hm, hx⟩ := handleAck_lists ap c
  rw [MissSafe, hw, hm, hx]
  exact ⟨h.1, .inl hk⟩

theorem MissSafe.handleNack (h : MissSafe c) {np : NackPacket}
    (hk : Backed (keptFrom np.rxWinStart c) c.txMissList)
    (hk' : Backed (keptFrom np.rxWinStart c) [(np.startSeq, np.endSeq)]) : MissSafe (handleNack np c).ch := by
  obtain ⟨hw, hm, hx⟩ := handleNack_lists np c
  rw [MissSafe, hw, hm, hx]
  exact ⟨h.1, .inl fun seq hs => (MissList.listed_add hs).elim (hk seq) (hk' seq)⟩

private theorem modify_seqs (win : List DataPacket) (i : Nat) (a : SeqNum) {d : DataPacket} (hd : d ∈ win) :
    ∃ d' ∈ win.modify i (fun e => { e with lastSentAckSeq := a }), d'.seq = d.seq := by
  obtain ⟨j, hj, rfl⟩ := List.mem_iff_getElem.mp hd
  refine ⟨_, List.getElem_mem (l := win.modify i _) (n := j) (by simpa using hj), ?_⟩
  rw [List.getElem_modify]
  split_ifs <;> rfl

/-- One turn of the loop: the popped number is found, and what is left is still backed. -/
theorem MissSafe.retransmitStep (h : MissSafe c) (ht : c.retranTask = true) :
    MissSafe (retransmitStep c).ch := by
  have hb : Backed c.txWin c.txMissList := h.2.elim id fun hx => absurd ht (by simp [hx.2])
  rw [Channel.retransmitStep]
  simp only
  split
  · exact ⟨h.1, .inl hb⟩
  · rename_i sq rest hpop
    have hrest : Backed c.txWin rest := fun seq hs => hb seq ((MissList.listed_popFront hpop seq).mpr (.inr hs))
    obtain ⟨d, hd, hseq⟩ := hb sq ((MissList.listed_popFront hpop sq).mpr (.inl rfl))
    split
    · rename_i hnone
      exact absurd (List.find?_eq_none.mp hnone d hd) (by simp [hseq])
    · split_ifs
      · exact ⟨h.1, .inl (hrest.mono fun d hd => modify_seqs _ _ _ hd)⟩
      · exact ⟨h.1, .inl (hrest.mono fun d hd => modify_seqs _ _ _ hd)⟩
      · exact ⟨h.1, .inl hrest⟩

theorem MissSafe.onSyn (h : MissSafe c) {now : UInt64} {expired : Bool}
    (hn : expired = true → c.retranTask = true → ∀ seq, ¬ MissList.Listed c.txMissList seq) :
    MissSafe (onSyn now expired c).ch := by
  cases expired with
  | true =>
    have := h.close false (hn rfl)
    exact this.of_eq rfl rfl rfl rfl rfl
  | false =>
    rw [Channel.onSyn]
    simp only [Bool.false_eq_true, if_false]
    split_ifs <;> exact h.of_eq rfl rfl rfl rfl rfl

end Channel

/-- The datagram lists, and its window start keeps, only what is still in `tx_win` behind it. -/
def Channel.Keeps (c : Channel) : Packet → Prop
  | .data rxWinStart _ _ _ => Channel.Backed (c.keptFrom rxWinStart) c.txMissList
  | .ack ap => ap.flags = .ack → Channel.Backed (c.keptFrom ap.rxWinStart) ap.missedSeq
  | .nack np => Channel.Backed (c.keptFrom np.rxWinStart) c.txMissList ∧
    Channel.Backed (c.keptFrom np.rxWinStart) [(np.startSeq, np.endSeq)]
  | .close => True

def Channel.NoneWaiting (c : Channel) : Prop :=
  c.retranTask = true → ∀ seq, ¬ MissList.Listed c.txMissList seq

/-! ### What must not happen on the way -/

/-- Of the listed numbers, counted from the window start that comes with them, none is before the packets that are left in
`tx_win`. -/
def Channel.Current (c : Channel) (l : MissList) (w : SeqNum) (start : Nat) : Prop :=
  ∀ seq, MissList.Listed l seq → ∃ d ∈ c.txWin.head?, d.idx ≤ start + (seq - w).toNat

/-- No number that waits for retransmission is before the window start. -/
def Channel.Spares (c : Channel) (w : SeqNum) : Prop := ∀ seq, MissList.Listed c.txMissList seq → SeqNum.lt seq w = false

/-- An ack or a nack is not stale: it asks for no packet that a window start has taken out of `tx_win` before. And the window
start of a data packet or a nack does not overtake the retransmission task. -/
def Channel.Timely (c : Channel) : Packet → Prop
  | .data rxWinStart _ _ _ => c.Spares rxWinStart
  | .ack ap => ap.flags = .ack → c.Current ap.missedSeq ap.rxWinStart ap.rxWinStartIdx
  | .nack np => c.Spares np.rxWinStart ∧ c.Current [(np.startSeq, np.endSeq)] np.rxWinStart np.rxWinStartIdx
  | .close => True

/-- Every datagram that is handled arrives in time, and a channel is closed only when nothing waits. -/
def InTime (n : Net) : Event → Prop
  | .deliver p i => (n.side p).ch.chan = true → ∀ pkt ∈ (n.flight p.other)[i]?, (n.side p).ch.Timely pkt
  | .close p => (n.side p).ch.NoneWaiting
  | .closeTask p => (n.side p).ch.NoneWaiting
  | .syn p _ expired => expired = true → (n.side p).ch.NoneWaiting
  | _ => True

instance (c : Channel) (l : MissList) (w : SeqNum) (start : Nat) : Decidable (c.Current l w start) :=
  inferInstanceAs (Decidable (∀ seq, MissList.Listed l seq → ∃ d ∈ c.txWin.head?, d.idx ≤ start + (seq - w).toNat))

instance (c : Channel) (w : SeqNum) : Decidable (c.Spares w) :=
  inferInstanceAs (Decidable (∀ seq, MissList.Listed c.txMissList seq → SeqNum.lt seq w = false))

instance (c : Channel) : (pkt : Packet) → Decidable (c.Timely pkt)
  | .data rxWinStart _ _ _ => inferInstanceAs (Decidable (c.Spares rxWinStart))
  | .ack ap => inferInstanceAs (Decidable (ap.flags = .ack → c.Current ap.missedSeq ap.rxWinStart ap.rxWinStartIdx))
  | .nack np => inferInstanceAs (Decidable
      (c.Spares np.rxWinStart ∧ c.Current [(np.startSeq, np.endSeq)] np.rxWinStart np.rxWinStartIdx))
  | .close => isTrue trivial

instance (c : Channel) : Decidable c.NoneWaiting :=
  decidable_of_iff (c.retranTask = true → c.txMissList = [])
    (imp_congr_right fun _ => MissList.listed_none_iff.symm)

instance (n : Net) : (e : Event) → Decidable (InTime n e)
  | .deliver p i => inferInstanceAs (Decidable ((n.side p).ch.chan = true →
      ∀ pkt ∈ (n.flight p.other)[i]?, (n.side p).ch.Timely pkt))
  | .close p | .closeTask p => inferInstanceAs (Decidable (n.side p).ch.NoneWaiting)
  | .syn p _ expired => inferInstanceAs (Decidable (expired = true → (n.side p).ch.NoneWaiting))
  | .write .. | .writeNext _ | .writeWake _ | .writeTimeout _ | .read .. | .readWake _
  | .retransmit _ | .drop .. | .dup .. => isTrue trivial

namespace Channel
variable {c : Channel} {l : MissList} {w : SeqNum} {a start top : Nat}

/-- A window start that spares the numbers leaves their packets. -/
theorem Backed.spared (h : Backed c.txWin l) (hs : ∀ seq, MissList.Listed l seq → SeqNum.lt seq w = false) :
    Backed (keptFrom w c) l := by
  intro seq hl
  obtain ⟨d, hd, rfl⟩ := h seq hl
  rcases advanceTx_holds w c d hd with hkept | hlt
  · exact ⟨d, hkept, rfl⟩
  · exact absurd (hlt.symm.trans (hs _ hl)) (by decide)

/-- What a receiver asks for is in the row, unless it was dropped; and its own window start drops none of it. -/
theorem Current.backed (h : c.Current l w start) (hask : Asks top l w start) (hrow : Row a c.txWin top) :
    Backed (keptFrom w c) l := by
  have hstart := hask.reported
  have hheld : Backed c.txWin l := by
    intro seq hl
    obtain ⟨x, rfl, hlo, hhi, hsent⟩ := hask.listed seq hl
    obtain ⟨d, hd, hle⟩ := h _ hl
    rw [hstart, SeqNum.toNat_sub_seqOf hlo (by omega)] at hle
    obtain ⟨win, hwin⟩ := List.head?_eq_some_iff.mp hd
    have hfirst : d.idx = a := by
      rw [hwin] at hrow
      exact hrow.1
    obtain ⟨e, he, rfl⟩ := hrow.mem (x := x) (by omega) hsent
    exact ⟨e, he, (hrow.bounds e he).2.2⟩
  refine hheld.spared fun seq hl => ?_
  obtain ⟨x, rfl, hlo, hhi, -⟩ := hask.listed seq hl
  rw [hstart, SeqNum.lt_seqOf ⟨by omega, by omega⟩, decide_eq_false_iff_not]
  omega

end Channel

/-- So a datagram in time keeps what is listed. -/
theorem Side.Rowed.keeps {s : Side} {pkt : Packet} (h : s.Rowed) (hsafe : s.ch.MissSafe) (hc : s.ch.chan = true)
    (hask : pkt.AsksFor s.top) (ht : s.ch.Timely pkt) : s.ch.Keeps pkt := by
  obtain ⟨a, hrow⟩ := h
  cases pkt with
  | data w seq payload idx => exact (hsafe.backed hc).spared ht
  | ack ap => exact fun hf => (ht hf).backed (hask hf) hrow
  | nack np => exact ⟨(hsafe.backed hc).spared ht.1, ht.2.backed hask hrow⟩
  | close => trivial

variable {n n' : Net} {e : Event}

/-- No endpoint has a listed number that `tx_win` does not hold. -/
def NetSafe (n : Net) : Prop := ∀ p, (n.side p).ch.MissSafe

theorem NetSafe.put (h : NetSafe n) {p : Peer} {s : Side} {sent : List Packet} (hs : s.ch.MissSafe) :
    NetSafe (n.put p s sent) :=
  Net.forall_put (P := fun s => s.ch.MissSafe) h hs sent

theorem Channel.MissSafe.onRecv {c : Channel} {pkt : Packet} (h : c.MissSafe) (hk : c.Keeps pkt) :
    (c.onRecv pkt).ch.MissSafe := by
  cases pkt with
  | data rxWinStart seq payload idx => exact h.handleData hk
  | ack ap =>
    unfold Channel.onRecv
    simp only
    split
    · rename_i hf
      exact h.handleAck (hk hf)
    · exact h.of_eq rfl rfl rfl rfl rfl
    · exact h
  | nack np => exact h.handleNack hk.1 hk.2
  | close => exact h

private theorem trySend_safe {s : Side} (h : s.ch.MissSafe) (dp : DataPacket) (rest : List UInt8) :
    (s.trySend dp rest).1.ch.MissSafe := by
  rw [Side.trySend]
  split_ifs
  · exact h.sendPacket dp
  · exact h.sendPacket dp
  · exact h

private theorem writeNext_safe {s : Side} (h : s.ch.MissSafe) (rest : List UInt8) :
    (s.writeNext rest).1.ch.MissSafe := by
  have ht : (s.ch.takePacket (rest.take maxPayload)).1.MissSafe := h.of_eq rfl rfl rfl rfl rfl
  exact trySend_safe (s := { s with ch := _, chunks := _ }) ht _ _

private theorem readMore_safe {s : Side} (h : s.ch.MissSafe) (len : Nat) (got : List UInt8) :
    (s.readMore len got).ch.MissSafe := by
  rw [Side.readMore]
  simp only
  split_ifs <;> exact h.of_eq rfl rfl rfl rfl rfl

theorem NetSafe.deliver {p : Peer} {i : Nat} {pkt : Packet} (h : NetSafe n) (ha : Asking n) (hk : InTime n (.deliver p i))
    (hi : (n.flight p.other)[i]? = some pkt) : NetSafe (n.deliver p pkt ((n.flight p.other).eraseIdx i)) := by
  refine Net.forall_deliver (P := fun s => s.ch.MissSafe) h _ (h p) fun hc => (h p).onRecv ?_
  have hask := ha.asks p.other pkt (List.mem_of_getElem? hi)
  rw [Peer.other_other] at hask
  exact (ha.rowed p hc).keeps (h p) hc hask (hk hc pkt hi)

theorem NetSafe.step (h : NetSafe n) (ha : Asking n) (hk : InTime n e) (hs : n.step e = some n') : NetSafe n' := by
  cases Net.takes_of_step hs with
  | write => exact h.put (h _)
  | writeNext => exact h.put (writeNext_safe (h _) _)
  | writeWake => exact h.put (trySend_safe (h _) _ _)
  | writeThrow => exact h.put (h _)
  | writeTimeout => exact h.put (h _)
  | read => exact h.put (readMore_safe (h _) _ _)
  | readWake => exact h.put (readMore_safe (h _) _ _)
  | readThrow => exact h.put (h _)
  | syn => exact h.put ((h _).onSyn hk)
  | retransmit _ htask => exact h.put ((h _).retransmitStep htask)
  | close => exact h.put ((h _).close true hk)
  | closeTask => exact h.put ((h _).close false hk)
  | deliver _ hi => exact h.deliver ha hk hi
  | drop => exact h
  | dup => exact h

theorem NetSafe.init (mwp : Peer → BitVec 16) : NetSafe (Net.init mwp) :=
  fun _ => ⟨rfl, .inl fun _ hs => absurd hs MissList.not_listed_nil⟩

/-- In every run in which no `write` times out, the acks and nacks that are handled are not stale, no window start overtakes
a pending task and no channel is closed under it, no endpoint leaves through `exit(1)`: a pending retransmission finds every
number it pops in `tx_win`. -/
theorem popped_in_txWin (mwp : Peer → BitVec 16) (hm : ∀ p, (mwp p).toNat ≤ 4096) (es : List Event) (n : Net)
    (hrun : run Net.step (Net.init mwp) es = some n)
    (hg : Guarded Net.step (fun n e => YoungData n e ∧ SendsNear n e ∧ NoTimeout e ∧ InTime n e) (Net.init mwp) es)
    (p : Peer) :
    (n.side p).ch.exited = false ∧ ((n.side p).ch.retranTask = true →
      ∀ sq, MissList.Listed (n.side p).ch.txMissList sq → ∃ d ∈ (n.side p).ch.txWin, d.seq = sq) := by
  obtain ⟨-, -, hsafe⟩ : FlowInv n ∧ Asking n ∧ NetSafe n :=
    invariant_of_guarded (fun n => FlowInv n ∧ Asking n ∧ NetSafe n)
      (fun s e t h hok hs => ⟨h.1.step hok.1 hok.2.1 hs, h.2.1.step h.1 hok.1 hok.2.2.1 hs,
        h.2.2.step h.2.1 hok.2.2.2 hs⟩)
      ⟨.init hm, .init mwp, .init mwp⟩ hg hrun
  refine ⟨(hsafe p).1, fun ht => (hsafe p).2.elim id fun hx => ?_⟩
  exact absurd ht (by simp [hx.2])

/-- Packets 1 to 3 are written, 3 overtakes 2, and the nack of 2 reaches the sender. -/
def lostSecond : List Event :=
  [.write .a [1], .writeNext .a, .deliver .b 0, .read .b 1, .syn .b 0 false, .deliver .a 0,
    .write .a [2], .writeNext .a, .write .a [3], .writeNext .a, .deliver .b 2, .dup .a 0, .deliver .a 0]

theorem popped_in_txWin_lostSecond : ∃ n, run Net.step (Net.init fun _ => 4096) lostSecond = some n ∧
    (n.side .a).ch.retranTask = true ∧ MissList.Listed (n.side .a).ch.txMissList 2 ∧
    ∃ d ∈ (n.side .a).ch.txWin, d.seq = 2 := by
  have hlist : (run Net.step (Net.init fun _ => 4096) lostSecond).map
      (fun n => ((n.side .a).ch.retranTask, (n.side .a).ch.txMissList)) = some (true, [(2, 2)]) := by
    decide +kernel
  obtain ⟨n, hrun, hn⟩ := Option.map_eq_some_iff.mp hlist
  obtain ⟨ht, hm⟩ := Prod.mk.inj hn
  have hl : MissList.Listed (n.side .a).ch.txMissList 2 := by
    rw [hm]
    decide
  exact ⟨n, hrun, ht, hl, (popped_in_txWin _ (fun _ => by decide) _ n hrun (by decide +kernel) .a).2 ht 2 hl⟩

/-- Four ways into `exit(1)`. The second copy of the nack arrives after the window has
moved on; a data packet of the peer moves the window while the task is pending; the
channel is closed while the task is pending; a `write` times out with number 2, which the receiver
misses when 3 arrives. -/
theorem retransmit_exits :
    (run Net.step (Net.init fun _ => 4096) (lostSecond ++ [.retransmit .a, .retransmit .a, .deliver .b 2,
        .read .b 2, .syn .b 0 false, .deliver .a 1, .deliver .a 0, .retransmit .a])).map
      (fun n => (n.side .a).ch.exited) = some true ∧
    (run Net.step (Net.init fun _ => 4096) (lostSecond ++ [.deliver .b 1, .read .b 2, .write .b [9],
        .writeNext .b, .deliver .a 1, .retransmit .a])).map
      (fun n => (n.side .a).ch.exited) = some true ∧
    (run Net.step (Net.init fun _ => 4096) (lostSecond ++ [.close .a, .retransmit .a])).map
      (fun n => (n.side .a).ch.exited) = some true ∧
    (run Net.step (Net.init fun _ => 4096) [.write .a [1], .writeNext .a, .write .a [2], .writeNext .a, .writeTimeout .a,
        .deliver .b 0, .read .b 1, .syn .b 0 false, .deliver .a 0, .write .a [3], .writeNext .a, .deliver .b 0,
        .deliver .a 0, .retransmit .a]).map
      (fun n => (n.side .a).ch.exited) = some true := by
  decide +kernel

end Tornet.Udt
