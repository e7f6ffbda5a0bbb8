import Tornet.Library.Runs
import Tornet.Udt.Frames
import Tornet.Udt.Window

/-! One receiving endpoint against any peer: whatever data packets arrive and whenever
the application reads, what `rx_win`, its two ends and `missed_seq` say about each other. -/
namespace Tornet.Udt.Receiver
open Library Runs

/-- A data packet with any header, the copy loop of one `read` up to its return or its
next wait, and a turn of `on_syn`, which sends an ack. -/
inductive Event where
  | data (rxWinStart seq : SeqNum) (payload : List UInt8)
  | read (len : Nat)
  | syn (now : UInt64)
  deriving DecidableEq, Repr

/-- How far a number lies ahead of the start of the receive window, around the circle. -/
def offset (c : Channel) (seq : SeqNum) : Nat := (seq - c.rxAckPack.rxWinStart).toNat

/-- The number of sequence numbers from `rx_win_start` to `rx_win_end`. -/
def span (c : Channel) : Nat := offset c (c.rxAckPack.rxWinEnd + 1)

/-- `rx_win_size`. -/
def size (c : Channel) : Nat := c.rxAckPack.rxWinSize.toNat

/-- What an event does. The history variable of an arriving packet is its count seen from
the start of the window. -/
def handle (c : Channel) : Event → Outcome
  | .data rxWinStart seq payload =>
    c.onRecv (.data rxWinStart seq payload (c.rxAckPack.rxWinStartIdx + offset c seq))
  | .read len =>
    let r := Channel.readLoop c.rxAckPack c.rxWin len
    { ch := { c with rxWin := r.2.2.1, rxAckPack := r.2.2.2 } }
  | .syn now => c.onSyn now false

def step (c : Channel) (e : Event) : Option Channel := some (handle c e).ch

/-- `rx_win` is strictly ascending inside `[rx_win_start, rx_win_end]`, and `missed_seq`
lists exactly the numbers of that range that are not in `rx_win`. -/
structure Exact (c : Channel) : Prop where
  ascending : c.rxWin.Pairwise fun d e => offset c d.seq < offset c e.seq
  inside : ∀ d ∈ c.rxWin, offset c d.seq < span c
  missed : ∀ seq, MissList.Listed c.rxAckPack.missedSeq seq ↔
    offset c seq < span c ∧ ∀ d ∈ c.rxWin, d.seq ≠ seq

/-- The bound of the receive window: its packets and its end. -/
structure Bounded (c : Channel) : Prop where
  packets : c.rxWin.length ≤ size c
  extent : span c ≤ size c

/-! ### The window in counts -/

section
variable {c : Channel} {dp : DataPacket}

theorem span_eq (h : RxWindow c.rxAckPack c.rxWin) :
    span c = c.rxAckPack.rxWinEndIdx + 1 - c.rxAckPack.rxWinStartIdx := by
  have hle := h.startLe
  have hspan := h.span
  have hsmall := h.small
  rw [span, offset, h.startSeq, h.endSeq, ← SeqNum.seqOf_succ]
  exact SeqNum.toNat_sub_seqOf hle (by omega)

private theorem span_le (h : RxWindow c.rxAckPack c.rxWin) : span c ≤ size c + 1 := by
  have hspan := h.span
  rw [span_eq h, size]
  omega

private theorem offset_seqOf (h : RxWindow c.rxAckPack c.rxWin) {x : Nat}
    (hlo : c.rxAckPack.rxWinStartIdx ≤ x) (hhi : x < c.rxAckPack.rxWinStartIdx + 2 ^ 16) :
    offset c (seqOf x) = x - c.rxAckPack.rxWinStartIdx := by
  rw [offset, h.startSeq]
  exact SeqNum.toNat_sub_seqOf hlo hhi

private theorem offset_held (h : RxWindow c.rxAckPack c.rxWin) {d : DataPacket} (hd : d ∈ c.rxWin) :
    offset c d.seq = d.idx - c.rxAckPack.rxWinStartIdx := by
  obtain ⟨hseq, hlo, hhi⟩ := h.held d hd
  have hspan := h.span
  have hsmall := h.small
  rw [hseq]
  exact offset_seqOf h hlo (by omega)

theorem seqOf_offset (h : RxWindow c.rxAckPack c.rxWin) (seq : SeqNum) :
    seqOf (c.rxAckPack.rxWinStartIdx + offset c seq) = seq := by
  rw [SeqNum.seqOf_add, ← h.startSeq, offset, SeqNum.seqOf_toNat]
  bv_omega

/-- The bookkeeping in counts is the bookkeeping in sequence numbers. -/
theorem exact_of_window (h : RxWindow c.rxAckPack c.rxWin) : Exact c := by
  have hle := h.startLe
  have hspan := h.span
  have hsmall := h.small
  refine ⟨?_, ?_, ?_⟩
  · refine h.sorted.imp_of_mem fun {d e} hd he hlt => ?_
    have := (h.held d hd).2.1
    rw [offset_held h hd, offset_held h he]
    omega
  · intro d hd
    obtain ⟨_, hlo, hhi⟩ := h.held d hd
    rw [offset_held h hd, span_eq h]
    omega
  · intro seq
    rw [h.missed.listed_iff c.rxAckPack.rxWinStartIdx fun x hx => ⟨hx.1, by omega⟩]
    constructor
    · rintro ⟨x, ⟨hlo, hhi, hne⟩, rfl⟩
      refine ⟨by rw [offset_seqOf h hlo (by omega), span_eq h]; omega, fun d hd heq => ?_⟩
      obtain ⟨hseq, hdlo, hdhi⟩ := h.held d hd
      rw [hseq, SeqNum.seqOf_inj ⟨by omega, by omega⟩] at heq
      exact hne d hd heq
    · rintro ⟨hlt, hne⟩
      rw [span_eq h] at hlt
      refine ⟨_, ⟨Nat.le_add_right _ _, by omega, fun d hd heq => ?_⟩, seqOf_offset h seq⟩
      obtain ⟨hseq, _, _⟩ := h.held d hd
      apply hne d hd
      rw [hseq, heq, seqOf_offset h]

/-- A packet at most `rx_win_size` ahead of the start is one the linear bookkeeping places. -/
theorem placed (h : RxWindow c.rxAckPack c.rxWin) (hdp : dp.idx = c.rxAckPack.rxWinStartIdx + offset c dp.seq)
    (ho : offset c dp.seq ≤ size c) : Channel.Placed dp c where
  window := h
  seq := by rw [hdp, seqOf_offset h]
  ahead := by rw [hdp]; exact Nat.add_le_add_left ho _
  young := by
    have hspan := h.span
    have hsmall := h.small
    omega

/-- No range of the miss list is around a number that lies behind the end of the window. -/
private theorem remove_outside (h : RxWindow c.rxAckPack c.rxWin) {seq : SeqNum} (ho : span c ≤ offset c seq) :
    c.rxAckPack.missedSeq.remove seq = c.rxAckPack.missedSeq := by
  apply MissList.remove_eq_self
  intro r hr
  obtain ⟨f, t, rfl, hft, hf, ht⟩ := h.missed.ends hr
  have hspan := h.span
  have hsmall := h.small
  have hof := offset_seqOf h hf.1 (by omega)
  have hot := offset_seqOf h ht.1 (by omega)
  have hlt : offset c (seqOf t) < span c := by
    rw [hot, span_eq h]
    omega
  have hfo : offset c (seqOf f) ≤ offset c (seqOf t) := by omega
  have hsp := span_le h
  have hsz : size c ≤ 4096 := hsmall
  rw [SeqNum.le_iff, SeqNum.le_iff]
  unfold offset at *
  bv_omega

/-- A packet further ahead than `rx_win_size` changes nothing, with one exception: once
the window is one longer than its size, the number half the space beyond its end. -/
theorem storeData_outside (h : RxWindow c.rxAckPack c.rxWin) (ho : size c < offset c dp.seq)
    (htie : ¬ (span c = size c + 1 ∧ offset c dp.seq = span c + 2 ^ 15)) :
    (Channel.storeData dp c).ch = c ∧ (Channel.storeData dp c).sent = [] := by
  have hsp := span_le h
  have hsz : size c ≤ 4096 := h.small
  have hrem : span c ≤ offset c dp.seq → c.rxAckPack.missedSeq.remove dp.seq = c.rxAckPack.missedSeq :=
    remove_outside h
  rw [Channel.storeData]
  simp only
  by_cases hnext : dp.seq = c.rxAckPack.rxWinEnd + 1
  · have hlimit : SeqNum.gt dp.seq (c.rxAckPack.rxWinStart + c.rxAckPack.rxWinSize) = true := by
      rw [SeqNum.gt_iff]
      unfold span offset size at *
      bv_omega
    rw [if_pos hnext, if_pos hlimit, hrem (by rw [hnext]; exact Nat.le_refl _)]
    exact ⟨rfl, rfl⟩
  have hspan : span c ≤ offset c dp.seq := by
    unfold span offset size at *
    bv_omega
  rw [if_neg hnext, hrem hspan]
  by_cases hgt : SeqNum.gt dp.seq (c.rxAckPack.rxWinEnd + 1) = true
  · have hlimit : SeqNum.gt dp.seq (c.rxAckPack.rxWinStart + c.rxAckPack.rxWinSize) = true := by
      rw [SeqNum.gt_iff] at hgt ⊢
      unfold span offset size at *
      bv_omega
    rw [if_pos hgt, if_pos hlimit]
    exact ⟨rfl, rfl⟩
  · have hlt : SeqNum.lt dp.seq c.rxAckPack.rxWinStart = true := by
      rw [SeqNum.gt_iff] at hgt
      rw [SeqNum.lt_iff]
      unfold span offset size at *
      bv_omega
    rw [if_neg hgt, if_pos hlt]
    exact ⟨rfl, rfl⟩

end

/-! ### The steps -/

/-- Reading moves the start of the window over what was read, and nothing else. -/
theorem readLoop_window {ack : AckPacket} {win : List DataPacket} (h : RxWindow ack win) (len : Nat) :
    RxWindow (Channel.readLoop ack win len).2.2.2 (Channel.readLoop ack win len).2.2.1 ∧
      (Channel.readLoop ack win len).2.2.2.rxWinSize = ack.rxWinSize ∧
      (Channel.readLoop ack win len).2.2.2.rxWinEndIdx = ack.rxWinEndIdx ∧
      ack.rxWinStartIdx ≤ (Channel.readLoop ack win len).2.2.2.rxWinStartIdx := by
  induction win generalizing ack len with
  | nil => exact ⟨h, rfl, rfl, Nat.le_refl _⟩
  | cons d rest ih =>
    rw [Channel.readLoop]
    by_cases hstop : len = 0 ∨ d.seq ≠ ack.rxWinStart
    · rw [if_pos hstop]
      exact ⟨h, rfl, rfl, Nat.le_refl _⟩
    rw [if_neg hstop]
    obtain ⟨_, hpop⟩ := h.pop (not_not.mp (not_or.mp hstop).2)
    simp only
    split_ifs with hdone
    · obtain ⟨hw, hsize, hend, hle⟩ := ih hpop (len - min len d.data.length)
      exact ⟨hw, hsize, hend, Nat.le_of_succ_le hle⟩
    · exact ⟨h.shorten _, rfl, rfl, Nat.le_refl _⟩

structure Ok (c : Channel) : Prop where
  window : RxWindow c.rxAckPack c.rxWin
  chan : c.chan = true

theorem Ok.init {mwp : BitVec 16} (hm : mwp.toNat ≤ 4096) : Ok (Channel.init mwp) where
  window := ⟨rfl, rfl, hm, Nat.le_refl _, Nat.zero_le _, List.Pairwise.nil, by simp [Channel.init],
    fun h => absurd h (by simp [Channel.init]),
    MissList.stores_nil fun x hx => by simp only [Channel.init] at hx; omega⟩
  chan := rfl

/-- A data packet reaches the receive window as `storeData` of it. -/
theorem handle_data_eq (c : Channel) (w seq : SeqNum) (payload : List UInt8) :
    ∃ b dp, dp.seq = seq ∧ dp.idx = b.rxAckPack.rxWinStartIdx + offset b dp.seq ∧
      (handle c (.data w seq payload)).ch = (Channel.storeData dp b).ch ∧
      b.rxAckPack = c.rxAckPack ∧ b.rxWin = c.rxWin ∧ b.chan = c.chan := by
  refine ⟨Channel.advanceTx w (Channel.startSynTimer c), ⟨w, seq, payload, 0, _⟩, rfl, ?_, rfl,
    by simp, by simp, by simp⟩
  simp [offset]

/-- What a step leaves: the window stays well formed, its start does not move back, and its
end moves only to an arriving number that lies at most `rx_win_size` ahead of the start. -/
structure Kept (c : Channel) (e : Event) (c' : Channel) : Prop where
  ok : Ok c'
  size : size c' = size c
  startLe : c.rxAckPack.rxWinStartIdx ≤ c'.rxAckPack.rxWinStartIdx
  endIdx : c'.rxAckPack.rxWinEndIdx = c.rxAckPack.rxWinEndIdx ∨ ∃ w seq payload,
    e = .data w seq payload ∧ offset c seq ≤ Receiver.size c ∧
      c'.rxAckPack.rxWinStartIdx = c.rxAckPack.rxWinStartIdx ∧
      c'.rxAckPack.rxWinEndIdx = max c.rxAckPack.rxWinEndIdx (c.rxAckPack.rxWinStartIdx + offset c seq)

variable {c c' : Channel} {seq : SeqNum}

/-- A packet at most `rx_win_size` ahead of the start. -/
theorem Ok.data_inside (h : Ok c) (w : SeqNum) (payload : List UInt8) (ho : offset c seq ≤ size c) :
    Ok (handle c (.data w seq payload)).ch ∧
      size (handle c (.data w seq payload)).ch = size c ∧
      (handle c (.data w seq payload)).ch.rxAckPack.rxWinStartIdx = c.rxAckPack.rxWinStartIdx ∧
      (handle c (.data w seq payload)).ch.rxAckPack.rxWinEndIdx =
        max c.rxAckPack.rxWinEndIdx (c.rxAckPack.rxWinStartIdx + offset c seq) := by
  obtain ⟨b, dp, rfl, hidx, heq, hack, hwin, hchan⟩ := handle_data_eq c w seq payload
  have hb : RxWindow b.rxAckPack b.rxWin := by
    rw [hack, hwin]
    exact h.window
  have hob : offset b dp.seq = offset c dp.seq := by rw [offset, offset, hack]
  have hstored := (placed hb hidx (by rw [hob, size, hack]; exact ho)).stored
  obtain ⟨ack, win, hframe, _, hstart, hsize, _⟩ := Channel.storeData_frame dp b
  have hend := hstored.endIdx
  rw [hidx, hob, hack] at hend
  rw [heq]
  refine ⟨⟨hstored.window, by rw [Channel.storeData_chan, hchan, h.chan]⟩, ?_, ?_, hend⟩
  · rw [size, hframe, hsize, hack, size]
  · rw [hframe, hstart, hack]

/-- A packet further ahead is dropped. -/
theorem Ok.data_outside (h : Ok c) (w : SeqNum) (payload : List UInt8) (ho : size c < offset c seq)
    (htie : ¬ (span c = size c + 1 ∧ offset c seq = span c + 2 ^ 15)) :
    Ok (handle c (.data w seq payload)).ch ∧
      (handle c (.data w seq payload)).ch.rxAckPack = c.rxAckPack := by
  obtain ⟨b, dp, rfl, hidx, heq, hack, hwin, hchan⟩ := handle_data_eq c w seq payload
  have hb : RxWindow b.rxAckPack b.rxWin := by
    rw [hack, hwin]
    exact h.window
  have hob : offset b dp.seq = offset c dp.seq := by rw [offset, offset, hack]
  have hsz : size b = size c := by rw [size, size, hack]
  have hsp : span b = span c := by rw [span, span, offset, offset, hack]
  have hfar : size b < offset b dp.seq := by rw [hob, hsz]; exact ho
  have hsame := (storeData_outside hb hfar (by rw [hob, hsz, hsp]; exact htie)).1
  rw [heq, hsame]
  exact ⟨⟨hb, hchan.trans h.chan⟩, hack⟩

theorem Ok.kept_data (h : Ok c) (w : SeqNum) (payload : List UInt8)
    (htie : ¬ (span c = size c + 1 ∧ offset c seq = span c + 2 ^ 15)) :
    Kept c (.data w seq payload) (handle c (.data w seq payload)).ch := by
  by_cases ho : offset c seq ≤ size c
  · obtain ⟨hok, hsize, hstart, hend⟩ := h.data_inside w payload ho
    exact ⟨hok, hsize, hstart.symm.le, .inr ⟨w, seq, payload, rfl, ho, hstart, hend⟩⟩
  · obtain ⟨hok, hack⟩ := h.data_outside w payload (Nat.lt_of_not_le ho) htie
    exact ⟨hok, by rw [size, size, hack], by rw [hack], .inl (by rw [hack])⟩

theorem Ok.kept_read (h : Ok c) (len : Nat) : Kept c (.read len) (handle c (.read len)).ch := by
  obtain ⟨hw, hsize, hend, hle⟩ := readLoop_window h.window len
  exact ⟨⟨hw, h.chan⟩, congrArg BitVec.toNat hsize, hle, .inl hend⟩

theorem Ok.kept_syn (h : Ok c) (now : UInt64) : Kept c (.syn now) (handle c (.syn now)).ch := by
  have hw := h.window
  unfold handle Channel.onSyn Channel.sendAck
  simp only [Bool.false_eq_true, if_false, h.chan, if_true]
  split_ifs <;> exact ⟨⟨{ hw with }, rfl⟩, rfl, Nat.le_refl _, .inl rfl⟩

/-! ### Runs -/

/-- The arriving number lies within 16384 of the current `rx_win_start`, either way. -/
def InReach (c : Channel) : Event → Prop
  | .data _ seq _ => -16384 ≤ SeqNum.distance c.rxAckPack.rxWinStart seq ∧
      SeqNum.distance c.rxAckPack.rxWinStart seq ≤ 16384
  | _ => True

instance (c : Channel) : (e : Event) → Decidable (InReach c e)
  | .data .. => inferInstanceAs (Decidable (_ ∧ _))
  | .read _ | .syn _ => isTrue trivial

/-- The arriving number is not the one right behind the largest window. -/
def NotPastWindow (c : Channel) : Event → Prop
  | .data _ seq _ => seq ≠ c.rxAckPack.rxWinStart + c.rxAckPack.rxWinSize
  | _ => True

instance (c : Channel) : (e : Event) → Decidable (NotPastWindow c e)
  | .data .. => inferInstanceAs (Decidable (_ ≠ _))
  | .read _ | .syn _ => isTrue trivial

/-- Within reach, the far number that `storeData_outside` excepts does not occur. -/
private theorem not_tie_of_inReach (h : Ok c) {w : SeqNum} {payload : List UInt8}
    (hr : InReach c (.data w seq payload)) :
    ¬ (span c = size c + 1 ∧ offset c seq = span c + 2 ^ 15) := by
  rintro ⟨hs, ho⟩
  have hsz : size c ≤ 4096 := h.window.small
  obtain ⟨hlo, _⟩ := hr
  change -16384 ≤ (seq - c.rxAckPack.rxWinStart).toInt at hlo
  rw [BitVec.toInt_eq_toNat_cond] at hlo
  unfold offset at ho
  split_ifs at hlo <;> omega

theorem Ok.step {e : Event} (h : Ok c) (hr : InReach c e) (hs : step c e = some c') : Kept c e c' := by
  cases Option.some.inj hs
  cases e with
  | data w seq payload => exact h.kept_data w payload (not_tie_of_inReach h hr)
  | read len => exact h.kept_read len
  | syn now => exact h.kept_syn now

/-- The ack `on_syn` sends in a well formed state. -/
theorem Ok.syn_sent (h : Ok c) (now : UInt64) : ∃ ap : AckPacket,
    (handle c (.syn now)).sent = [.ack ap] ∧ ap.rxWinStart = c.rxAckPack.rxWinStart ∧
      ap.rxWinEnd = c.rxAckPack.rxWinEnd ∧ ap.missedSeq = c.rxAckPack.missedSeq.take 128 := by
  have hlen : c.rxAckPack.missedSeq.length ≤ 2 ^ 15 := by
    have hspan := h.window.span
    have hsmall := h.window.small
    have hle : c.rxAckPack.missedSeq.length ≤
        c.rxAckPack.rxWinEndIdx + 1 - c.rxAckPack.rxWinStartIdx :=
      h.window.missed.length_le fun x hx => ⟨hx.1, by omega⟩
    omega
  refine ⟨{ c.rxAckPack with
    ackSeq := c.rxAckPack.ackSeq + 1, utcTime := now, missedSeq := c.rxAckPack.missedSeq.wire },
    ?_, rfl, rfl, MissList.wire_eq_take hlen⟩
  unfold handle Channel.onSyn Channel.sendAck
  simp only [Bool.false_eq_true, if_false, h.chan, if_true]
  split_ifs <;> rfl

private theorem ok_of_run {mwp : BitVec 16} (hm : mwp.toNat ≤ 4096) {es : List Event}
    (hrun : run step (Channel.init mwp) es = some c)
    (hg : Guarded step InReach (Channel.init mwp) es) : Ok c :=
  invariant_of_guarded Ok (fun _ _ _ h hr hs => (h.step hr hs).ok) (Ok.init hm) hg hrun

theorem run_total (c : Channel) (es : List Event) : ∃ c', run step c es = some c' := by
  induction es generalizing c with
  | nil => exact ⟨c, rfl⟩
  | cons e es ih => exact ih (handle c e).ch

/-- For every window of at most 4096 packets and all data packets within reach of the window
start, in any order, with reads in between: `rx_win` is strictly ascending between the two
ends and `missed_seq` lists exactly the numbers between them that are missing. An ack
carries the first 128 ranges of that list, so it is exact as long as there are no more. -/
theorem window_exact (mwp : BitVec 16) (hm : mwp.toNat ≤ 4096) (es : List Event) (c : Channel)
    (hrun : run step (Channel.init mwp) es = some c)
    (hg : Guarded step InReach (Channel.init mwp) es) :
    Exact c ∧ ∀ now, ∃ ap : AckPacket, (handle c (.syn now)).sent = [.ack ap] ∧
      ap.rxWinStart = c.rxAckPack.rxWinStart ∧ ap.rxWinEnd = c.rxAckPack.rxWinEnd ∧
      ap.missedSeq = c.rxAckPack.missedSeq.take 128 ∧
      (c.rxAckPack.missedSeq.length ≤ 128 → ∀ seq, MissList.Listed ap.missedSeq seq ↔
        offset c seq < span c ∧ ∀ d ∈ c.rxWin, d.seq ≠ seq) := by
  have hok := ok_of_run hm hrun hg
  have hexact := exact_of_window hok.window
  refine ⟨hexact, fun now => ?_⟩
  obtain ⟨ap, hsent, hstart, hend, hmiss⟩ := hok.syn_sent now
  refine ⟨ap, hsent, hstart, hend, hmiss, fun hlen seq => ?_⟩
  rw [hmiss, List.take_of_length_le hlen]
  exact hexact.missed seq

/-- Packet 3 overtakes packet 2. -/
theorem window_exact_gap : ∃ c, run step (Channel.init 4096) [.data 1 1 [7], .data 1 3 [9]] = some c ∧
    c.rxWin.map DataPacket.seq = [1, 3] ∧ MissList.Listed c.rxAckPack.missedSeq 2 ∧ Exact c := by
  have hwin : (run step (Channel.init 4096) [.data 1 1 [7], .data 1 3 [9]]).map
      (fun c => (c.rxWin.map DataPacket.seq, c.rxAckPack.missedSeq)) = some ([1, 3], [(2, 2)]) := by
    decide +kernel
  obtain ⟨c, hrun, hc⟩ := Option.map_eq_some_iff.mp hwin
  obtain ⟨hw, hl⟩ := Prod.mk.inj hc
  refine ⟨c, hrun, hw, by rw [hl]; decide, ?_⟩
  exact (window_exact 4096 (by decide) _ c hrun (by decide +kernel)).1

/-- The even packets up to `2 * k`: `k` gaps of one packet. -/
def everySecond : Nat → List Event
  | 0 => []
  | k + 1 => everySecond k ++ [.data 1 (seqOf (2 * k + 2)) []]

/-- The window after them. -/
private structure Gaps (k : Nat) (c : Channel) : Prop where
  start : c.rxAckPack.rxWinStart = seqOf 1
  size : c.rxAckPack.rxWinSize = seqOf 4096
  stop : c.rxAckPack.rxWinEnd = seqOf (2 * k)
  missed : c.rxAckPack.missedSeq = MissList.ofIntervals ((List.range k).map fun i => (2 * i + 1, 2 * i + 1))

private theorem Gaps.step {k : Nat} (h : Gaps k c) (hk : k < 1000) :
    Gaps (k + 1) (handle c (.data 1 (seqOf (2 * k + 2)) [])).ch := by
  obtain ⟨b, dp, hseq, -, heq, hack, -, -⟩ := handle_data_eq c 1 (seqOf (2 * k + 2)) []
  rw [heq]
  obtain ⟨hstart, hsize, hstop, hmissed⟩ := h
  have hrem : c.rxAckPack.missedSeq.remove dp.seq = c.rxAckPack.missedSeq := by
    apply MissList.remove_eq_self
    intro r hr hle
    rw [hmissed] at hr
    obtain ⟨q, hq, rfl⟩ := List.mem_map.mp hr
    obtain ⟨i, hi, rfl⟩ := List.mem_map.mp hq
    have hi := List.mem_range.mp hi
    rw [hseq, SeqNum.le_seqOf ⟨by omega, by omega⟩, SeqNum.le_seqOf ⟨by omega, by omega⟩] at hle
    simp only [decide_eq_true_eq] at hle
    omega
  have hnext : c.rxAckPack.rxWinEnd + 1 = seqOf (2 * k + 1) := by rw [hstop, SeqNum.seqOf_succ]
  have hne : ¬ dp.seq = c.rxAckPack.rxWinEnd + 1 := by
    rw [hseq, hnext, SeqNum.seqOf_inj ⟨by omega, by omega⟩]
    omega
  have hgt : SeqNum.gt dp.seq (c.rxAckPack.rxWinEnd + 1) = true := by
    rw [hseq, hnext, SeqNum.gt_seqOf ⟨by omega, by omega⟩, decide_eq_true_eq]
    omega
  have hfits : ¬ SeqNum.gt dp.seq (c.rxAckPack.rxWinStart + c.rxAckPack.rxWinSize) = true := by
    rw [hseq, hstart, hsize, ← SeqNum.seqOf_add, SeqNum.gt_seqOf ⟨by omega, by omega⟩, decide_eq_true_eq]
    omega
  have hadd : c.rxAckPack.missedSeq.add (c.rxAckPack.rxWinEnd + 1) (dp.seq - 1) =
      MissList.ofIntervals ((List.range (k + 1)).map fun i => (2 * i + 1, 2 * i + 1)) := by
    rw [hnext, hseq, SeqNum.seqOf_pred, hmissed, MissList.add_ofIntervals, List.range_succ, List.map_append]
    · rfl
    · intro r hr
      obtain ⟨i, hi, rfl⟩ := List.mem_map.mp hr
      have hi := List.mem_range.mp hi
      exact ⟨by simp only; omega, by simp only; omega⟩
  rw [Channel.storeData]
  simp only [hack, hrem]
  rw [if_neg hne, if_pos hgt, if_neg hfits]
  exact ⟨hstart, hsize, hseq, hadd⟩

private theorem run_everySecond {k : Nat} (hk : k < 1000) :
    ∃ c, run step (Channel.init 4096) (everySecond k) = some c ∧ Gaps k c := by
  induction k with
  | zero => exact ⟨_, rfl, rfl, rfl, rfl, rfl⟩
  | succ k ih =>
    obtain ⟨c, hrun, hc⟩ := ih (by omega)
    exact ⟨_, run_snoc_of hrun rfl, hc.step (by omega)⟩

private theorem inReach_everySecond : Guarded step InReach (Channel.init 4096) (everySecond 129) := by
  decide +kernel

set_option maxRecDepth 4096 in
/-- An ack that says nothing of the missing packet 257. -/
theorem ack_omits_missing : ∃ c ap, run step (Channel.init 4096) (everySecond 129) = some c ∧
    Guarded step InReach (Channel.init 4096) (everySecond 129) ∧
    (handle c (.syn 0)).sent = [.ack ap] ∧
    (offset c 257 < span c ∧ ∀ d ∈ c.rxWin, d.seq ≠ 257) ∧ ¬ MissList.Listed ap.missedSeq 257 := by
  obtain ⟨c, hrun, hgaps⟩ := run_everySecond (k := 129) (by decide)
  have hok : Ok c := ok_of_run (by decide) hrun inReach_everySecond
  obtain ⟨ap, hsent, _, _, hmiss⟩ := hok.syn_sent 0
  refine ⟨c, ap, hrun, inReach_everySecond, hsent, ((exact_of_window hok.window).missed 257).mp ?_, ?_⟩
  · rw [hgaps.missed]
    decide
  · rw [hmiss, hgaps.missed]
    decide

/-! ### The bound -/

private theorem length_le_of_ascending {l : List Nat} (h : l.Pairwise (· < ·)) {n : Nat}
    (hn : ∀ x ∈ l, x < n) : l.length ≤ n := by
  have hsub : l.Subperm (List.range n) :=
    List.subperm_of_subset (h.imp Nat.ne_of_lt) fun x hx => List.mem_range.mpr (hn x hx)
  simpa using hsub.length_le

/-- The window holds no more packets than it has numbers. -/
theorem bounded_iff (h : Ok c) : Bounded c ↔ span c ≤ size c := by
  refine ⟨Bounded.extent, fun hspan => ⟨?_, hspan⟩⟩
  have hexact := exact_of_window h.window
  have hlen := length_le_of_ascending (List.pairwise_map.mpr hexact.ascending) (n := span c)
    (by simpa using hexact.inside)
  rw [List.length_map] at hlen
  omega

private theorem offset_limit (c : Channel) {seq : SeqNum} :
    seq = c.rxAckPack.rxWinStart + c.rxAckPack.rxWinSize ↔ offset c seq = size c := by
  unfold offset size
  bv_omega

/-- From a window within its bound, a step stays within it unless the number right behind the
largest window arrives. -/
theorem Ok.step_bounded {e : Event} (h : Ok c) (hb : span c ≤ size c) (hk : NotPastWindow c e)
    (hs : Receiver.step c e = some c') : Ok c' ∧ span c' ≤ size c' := by
  have hkept : Kept c e c' := by
    cases Option.some.inj hs
    cases e with
    | data w seq payload => exact h.kept_data w payload fun htie => by omega
    | read len => exact h.kept_read len
    | syn now => exact h.kept_syn now
  refine ⟨hkept.ok, ?_⟩
  have hle := hkept.startLe
  rw [span_eq h.window] at hb
  rw [span_eq hkept.ok.window, hkept.size]
  rcases hkept.endIdx with hend | ⟨w, seq, payload, rfl, ho, hstart, hend⟩
  · omega
  · have hne : offset c seq ≠ Receiver.size c := fun heq => hk ((offset_limit c).mpr heq)
    omega

/-- The number right behind the largest window is taken and breaks the bound. -/
theorem Ok.step_unbounded (h : Ok c) (w : SeqNum) (payload : List UInt8) :
    ¬ Bounded (handle c (.data w (c.rxAckPack.rxWinStart + c.rxAckPack.rxWinSize) payload)).ch := by
  have ho := (offset_limit c).mp (rfl : c.rxAckPack.rxWinStart + c.rxAckPack.rxWinSize = _)
  obtain ⟨hok, hsize, hstart, hend⟩ := h.data_inside w payload ho.le
  intro hb
  have hspan := hb.extent
  rw [span_eq hok.window, hsize, hstart, hend, ho] at hspan
  omega

/-- The window holds at most `rx_win_size` packets and its end stays below
`rx_win_start + rx_win_size` after every step of a run if and only if no data packet arrives
with the number `rx_win_start + rx_win_size`. Any other 16-bit number is harmless. -/
theorem window_bounded_iff (mwp : BitVec 16) (hm : mwp.toNat ≤ 4096) (es : List Event) :
    Bounded (Channel.init mwp) ∧
      (Always step (fun _ _ c => Bounded c) (Channel.init mwp) es ↔
        Guarded step NotPastWindow (Channel.init mwp) es) := by
  have hinit : span (Channel.init mwp) ≤ size (Channel.init mwp) := by
    rw [span_eq (Ok.init hm).window]
    exact Nat.zero_le _
  refine ⟨(bounded_iff (Ok.init hm)).mpr hinit, ?_⟩
  obtain ⟨c, hrun⟩ := run_total (Channel.init mwp) es
  apply always_iff_guarded (fun c => Ok c ∧ span c ≤ size c) _ _ ⟨Ok.init hm, hinit⟩ hrun
  · intro s e t h hk hs
    have hnext := h.1.step_bounded h.2 hk hs
    exact ⟨(bounded_iff hnext.1).mpr hnext.2, hnext⟩
  · intro s e t h hb hs
    cases Option.some.inj hs
    cases e with
    | data w seq payload =>
      rintro rfl
      exact h.1.step_unbounded w payload hb
    | read len => trivial
    | syn now => trivial

theorem window_bounded_far : Always step (fun _ _ c => Bounded c) (Channel.init 2)
    [.data 1 1 [7], .data 1 40000 [8], .data 1 4 [9], .read 1, .data 2 3 [5]] :=
  (window_bounded_iff 2 (by decide) _).2.mpr (by decide +kernel)

/-- A window of one packet takes two. -/
theorem window_overfull : (run step (Channel.init 1) [.data 1 1 [7], .data 1 2 [8]]).map
    (fun c => (size c, c.rxWin.length, span c)) = some (1, 2, 2) := by
  decide +kernel

end Tornet.Udt.Receiver
