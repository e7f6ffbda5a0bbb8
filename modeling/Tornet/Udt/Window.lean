import Tornet.Udt.Channel

/-! The receive window in unbounded counts: as long as arriving packets are young,
the circular bookkeeping of `handle_data` and `read` is the linear one. -/
namespace Tornet.Udt
open Library

/-- The receive window holds packets of consecutive counts between its two ends, in
order, and the miss list stores exactly the counts that are not held. -/
structure RxWindow (ack : AckPacket) (win : List DataPacket) : Prop where
  startSeq : ack.rxWinStart = seqOf ack.rxWinStartIdx
  endSeq : ack.rxWinEnd = seqOf ack.rxWinEndIdx
  small : ack.rxWinSize.toNat ≤ 4096
  startLe : ack.rxWinStartIdx ≤ ack.rxWinEndIdx + 1
  span : ack.rxWinEndIdx ≤ ack.rxWinStartIdx + ack.rxWinSize.toNat
  sorted : win.Pairwise fun d e => d.idx < e.idx
  held : ∀ d ∈ win, d.seq = seqOf d.idx ∧ ack.rxWinStartIdx ≤ d.idx ∧ d.idx ≤ ack.rxWinEndIdx
  last : ack.rxWinStartIdx ≤ ack.rxWinEndIdx → ∃ d ∈ win, d.idx = ack.rxWinEndIdx
  missed : ack.missedSeq.Stores fun x =>
    ack.rxWinStartIdx ≤ x ∧ x ≤ ack.rxWinEndIdx ∧ ∀ d ∈ win, d.idx ≠ x

/-! ### Rows of packets -/

/-- The packets have the numbers from `start` to `stop`, in order. -/
def Row : Nat → List DataPacket → Nat → Prop
  | start, [], stop => start = stop + 1
  | start, d :: win, stop => d.idx = start ∧ d.seq = seqOf start ∧ Row (start + 1) win stop

section
variable {start stop : Nat} {win : List DataPacket} {d : DataPacket}

theorem Row.le (h : Row start win stop) : start ≤ stop + 1 := by
  induction win generalizing start with
  | nil => exact h.le
  | cons d win ih => exact (Nat.le_succ _).trans (ih h.2.2)

theorem Row.append (h : Row start win stop) (hidx : d.idx = stop + 1) (hseq : d.seq = seqOf (stop + 1)) :
    Row start (win ++ [d]) (stop + 1) := by
  induction win generalizing start with
  | nil =>
    obtain rfl : start = stop + 1 := h
    exact ⟨hidx, hseq, rfl⟩
  | cons d' win ih => exact ⟨h.1, h.2.1, ih h.2.2⟩

theorem Row.bounds (h : Row start win stop) : ∀ d ∈ win, start ≤ d.idx ∧ d.idx ≤ stop ∧ d.seq = seqOf d.idx := by
  induction win generalizing start with
  | nil => exact fun d hd => absurd hd List.not_mem_nil
  | cons d' win ih =>
    intro d hd
    obtain ⟨hidx, hseq, hrow⟩ := h
    rcases List.mem_cons.mp hd with rfl | hd
    · have hle := hrow.le
      rw [hidx]
      exact ⟨Nat.le_refl _, by omega, hseq⟩
    · obtain ⟨hlo, hhi, hseq'⟩ := ih hrow d hd
      exact ⟨by omega, hhi, hseq'⟩

theorem Row.mem (h : Row start win stop) {x : Nat} (hlo : start ≤ x) (hhi : x ≤ stop) : ∃ d ∈ win, d.idx = x := by
  induction win generalizing start with
  | nil =>
    obtain rfl : start = stop + 1 := h
    omega
  | cons d win ih =>
    obtain ⟨hidx, -, hrow⟩ := h
    rcases Nat.eq_or_lt_of_le hlo with rfl | hlt
    · exact ⟨d, List.mem_cons_self, hidx⟩
    · obtain ⟨e, he, hex⟩ := ih hrow hlt
      exact ⟨e, List.mem_cons_of_mem _ he, hex⟩

theorem Row.suffix {pre : List DataPacket} (h : Row start (pre ++ win) stop) : ∃ start', Row start' win stop := by
  induction pre generalizing start with
  | nil => exact ⟨start, h⟩
  | cons d pre ih => exact ih h.2.2

/-- A packet that is sent again keeps its place. -/
theorem Row.modify (h : Row start win stop) (i : Nat) (a : SeqNum) :
    Row start (win.modify i fun d => { d with lastSentAckSeq := a }) stop := by
  induction win generalizing start i with
  | nil =>
    rw [List.modify_nil]
    exact h
  | cons d win ih =>
    obtain ⟨hidx, hseq, hrow⟩ := h
    cases i with
    | zero => exact ⟨hidx, hseq, hrow⟩
    | succ i => exact ⟨hidx, hseq, ih hrow i⟩

end

namespace RxWindow
variable {ack : AckPacket} {win : List DataPacket} {dp : DataPacket}

/-- A packet behind the end of the window, within the advertised size. -/
theorem append (h : RxWindow ack win) (hseq : dp.seq = seqOf dp.idx)
    (hend : ack.rxWinEndIdx < dp.idx) (hahead : dp.idx ≤ ack.rxWinStartIdx + ack.rxWinSize.toNat)
    {m : MissList} (hm : m.Stores fun x =>
      ack.rxWinStartIdx ≤ x ∧ x < dp.idx ∧ ∀ d ∈ win, d.idx ≠ x) :
    RxWindow { ack with rxWinEnd := dp.seq, rxWinEndIdx := dp.idx, missedSeq := m }
      (win ++ [dp]) where
  startSeq := h.startSeq
  endSeq := hseq
  small := h.small
  startLe := by have := h.startLe; simp only; omega
  span := hahead
  sorted := by
    refine List.pairwise_append.mpr ⟨h.sorted, List.pairwise_singleton _ _, fun d hd e he => ?_⟩
    have := (h.held d hd).2.2
    rw [List.mem_singleton.mp he]
    omega
  held := by
    intro d hd
    rcases List.mem_append.mp hd with hd | hd
    · obtain ⟨hs, hl, hr⟩ := h.held d hd
      exact ⟨hs, hl, by simp only; omega⟩
    · rw [List.mem_singleton.mp hd]
      have := h.startLe
      exact ⟨hseq, by simp only; omega, Nat.le_refl _⟩
  last := fun _ => ⟨dp, by simp, rfl⟩
  missed := hm.congr fun x => by
    simp only [List.mem_append, List.mem_singleton]
    constructor
    · rintro ⟨h1, h2, h3⟩
      refine ⟨h1, by omega, fun d hd => ?_⟩
      rcases hd with hd | rfl
      · exact h3 d hd
      · omega
    · rintro ⟨h1, h2, h3⟩
      have := h3 dp (.inr rfl)
      exact ⟨h1, by omega, fun d hd => h3 d (.inl hd)⟩

end RxWindow

namespace Channel

theorem mem_insertSorted {dp d : DataPacket} {l : List DataPacket} :
    d ∈ insertSorted dp l ↔ d = dp ∨ d ∈ l := by
  induction l with
  | nil => simp [insertSorted]
  | cons e l ih =>
    rw [insertSorted]
    split_ifs
    · simp only [List.mem_cons, ih]
      tauto
    · simp only [List.mem_cons]

/-- With counts close together the insertion scan is the linear one. -/
theorem sorted_insertSorted {dp : DataPacket} {l : List DataPacket}
    (hseq : dp.seq = seqOf dp.idx) (hl : ∀ d ∈ l, d.seq = seqOf d.idx ∧ SeqNum.Near d.idx dp.idx)
    (hne : ∀ d ∈ l, d.idx ≠ dp.idx) (hs : l.Pairwise fun d e => d.idx < e.idx) :
    (insertSorted dp l).Pairwise fun d e => d.idx < e.idx := by
  induction l with
  | nil => simp [insertSorted]
  | cons e l ih =>
    obtain ⟨he, hs⟩ := List.pairwise_cons.mp hs
    obtain ⟨heq, hnear⟩ := hl e List.mem_cons_self
    have hne' := hne e List.mem_cons_self
    have ih := ih (fun d hd => hl d (List.mem_cons_of_mem _ hd))
      (fun d hd => hne d (List.mem_cons_of_mem _ hd)) hs
    rw [insertSorted]
    rw [heq, hseq, SeqNum.lt_seqOf hnear]
    split_ifs with hlt
    · refine List.pairwise_cons.mpr ⟨fun d hd => ?_, ih⟩
      rcases mem_insertSorted.mp hd with rfl | hd
      · simpa using hlt
      · exact he d hd
    · have hlt : dp.idx < e.idx := by simp at hlt; omega
      refine List.pairwise_cons.mpr ⟨fun d hd => ?_, List.pairwise_cons.mpr ⟨he, hs⟩⟩
      rcases List.mem_cons.mp hd with rfl | hd
      · exact hlt
      · have := he d hd
        omega

/-- The duplicate test of the insertion scan finds exactly the held counts. -/
theorem scanStop_any {dp : DataPacket} {l : List DataPacket} (hseq : dp.seq = seqOf dp.idx)
    (hl : ∀ d ∈ l, d.seq = seqOf d.idx ∧ SeqNum.Near d.idx dp.idx)
    (hs : l.Pairwise fun d e => d.idx < e.idx) :
    ((scanStop dp l).any fun d => d.seq == dp.seq) = true ↔ ∃ d ∈ l, d.idx = dp.idx := by
  induction l with
  | nil => simp [scanStop]
  | cons e l ih =>
    obtain ⟨he, hs⟩ := List.pairwise_cons.mp hs
    obtain ⟨heq, hnear⟩ := hl e List.mem_cons_self
    have ih := ih (fun d hd => hl d (List.mem_cons_of_mem _ hd)) hs
    unfold scanStop at ih ⊢
    rw [List.find?_cons]
    rw [heq, hseq, SeqNum.lt_seqOf hnear]
    by_cases hlt : e.idx < dp.idx
    · simp only [hlt, decide_true, Bool.not_true, List.mem_cons, exists_eq_or_imp]
      rw [← hseq, ih]
      constructor
      · exact .inr
      · rintro (h | h)
        · omega
        · exact h
    · simp only [hlt, decide_false, Bool.not_false, Option.any_some, beq_iff_eq, List.mem_cons,
        exists_eq_or_imp, heq, SeqNum.seqOf_inj hnear]
      constructor
      · exact .inl
      · rintro (h | ⟨d, hd, h⟩)
        · exact h
        · have := he d hd
          omega

/-- `handle_data` changes nothing but the receive window, and never its start or size. -/
theorem storeData_frame (dp : DataPacket) (c : Channel) :
    ∃ ack win, (storeData dp c).ch = { c with rxAckPack := ack, rxWin := win } ∧
      ack.rxWinStart = c.rxAckPack.rxWinStart ∧ ack.rxWinStartIdx = c.rxAckPack.rxWinStartIdx ∧
      ack.rxWinSize = c.rxAckPack.rxWinSize ∧ ack.ackSeq = c.rxAckPack.ackSeq ∧
      ack.flags = c.rxAckPack.flags := by
  rw [storeData]
  simp only
  split_ifs <;> exact ⟨_, _, rfl, rfl, rfl, rfl, rfl, rfl⟩

/-- Nothing but a nack is sent, and only for a packet beyond the expected one. -/
theorem storeData_sent (dp : DataPacket) (c : Channel) :
    (storeData dp c).sent = [] ∨
      ∃ np, (storeData dp c).sent = [.nack np] ∧
        SeqNum.gt dp.seq (c.rxAckPack.rxWinEnd + 1) = true := by
  rw [storeData]
  simp only
  split_ifs with h1 h2 h3 h4
  all_goals first
    | exact .inl rfl
    | exact .inr ⟨_, rfl, h3⟩

/-- What a stored packet does to the window, in unbounded counts. -/
structure Stored (dp : DataPacket) (c c' : Channel) : Prop where
  window : RxWindow c'.rxAckPack c'.rxWin
  endIdx : c'.rxAckPack.rxWinEndIdx = max c.rxAckPack.rxWinEndIdx dp.idx
  mem : ∀ d, d ∈ c'.rxWin ↔ d ∈ c.rxWin ∨
    (d = dp ∧ c.rxAckPack.rxWinStartIdx ≤ dp.idx ∧ ∀ e ∈ c.rxWin, e.idx ≠ dp.idx)

/-- An arriving packet whose count the 16-bit comparisons of `handle_data` can place:
not beyond the advertised window, and less than half the number space behind its end. -/
structure Placed (dp : DataPacket) (c : Channel) : Prop where
  window : RxWindow c.rxAckPack c.rxWin
  seq : dp.seq = seqOf dp.idx
  ahead : dp.idx ≤ c.rxAckPack.rxWinStartIdx + c.rxAckPack.rxWinSize.toNat
  young : c.rxAckPack.rxWinEndIdx + 1 < dp.idx + 2 ^ 15

namespace Placed
variable {c : Channel} {dp : DataPacket}

private theorem near_end (h : Placed dp c) : SeqNum.Near dp.idx (c.rxAckPack.rxWinEndIdx + 1) := by
  obtain ⟨hw, _, hahead, hyoung⟩ := h
  have := hw.small
  have := hw.startLe
  exact ⟨by omega, by omega⟩

theorem eq_next_iff (h : Placed dp c) :
    dp.seq = c.rxAckPack.rxWinEnd + 1 ↔ dp.idx = c.rxAckPack.rxWinEndIdx + 1 := by
  rw [h.seq, h.window.endSeq, ← SeqNum.seqOf_succ, SeqNum.seqOf_inj h.near_end]

theorem gt_next_iff (h : Placed dp c) :
    SeqNum.gt dp.seq (c.rxAckPack.rxWinEnd + 1) = true ↔ c.rxAckPack.rxWinEndIdx + 1 < dp.idx := by
  rw [h.seq, h.window.endSeq, ← SeqNum.seqOf_succ, SeqNum.gt_seqOf h.near_end, decide_eq_true_eq]

theorem lt_start_iff (h : Placed dp c) :
    SeqNum.lt dp.seq c.rxAckPack.rxWinStart = true ↔ dp.idx < c.rxAckPack.rxWinStartIdx := by
  obtain ⟨hw, hseq, hahead, hyoung⟩ := h
  have := hw.small
  have := hw.startLe
  have near : SeqNum.Near dp.idx c.rxAckPack.rxWinStartIdx := ⟨by omega, by omega⟩
  rw [hseq, hw.startSeq, SeqNum.lt_seqOf near, decide_eq_true_eq]

/-- The window limit is only tested for packets behind the end, and they pass. -/
theorem not_gt_limit (h : Placed dp c) (hend : c.rxAckPack.rxWinEndIdx < dp.idx) :
    ¬ SeqNum.gt dp.seq (c.rxAckPack.rxWinStart + c.rxAckPack.rxWinSize) = true := by
  obtain ⟨hw, hseq, hahead, _⟩ := h
  have := hw.small
  have := hw.startLe
  have near : SeqNum.Near dp.idx (c.rxAckPack.rxWinStartIdx + c.rxAckPack.rxWinSize.toNat) :=
    ⟨by omega, by omega⟩
  rw [hseq, hw.startSeq, ← SeqNum.seqOf_toNat c.rxAckPack.rxWinSize, ← SeqNum.seqOf_add,
    SeqNum.gt_seqOf near, decide_eq_true_eq]
  simpa [SeqNum.seqOf_toNat] using hahead

private theorem held_near (h : Placed dp c) :
    ∀ d ∈ c.rxWin, d.seq = seqOf d.idx ∧ SeqNum.Near d.idx dp.idx := by
  intro d hd
  obtain ⟨hw, _, hahead, hyoung⟩ := h
  have := hw.small
  obtain ⟨hd1, hd2, hd3⟩ := hw.held d hd
  exact ⟨hd1, by omega, by omega⟩

theorem missed_remove (h : Placed dp c) : (c.rxAckPack.missedSeq.remove dp.seq).Stores fun x =>
    (c.rxAckPack.rxWinStartIdx ≤ x ∧ x ≤ c.rxAckPack.rxWinEndIdx ∧ ∀ d ∈ c.rxWin, d.idx ≠ x) ∧
      x ≠ dp.idx := by
  obtain ⟨hw, hseq, hahead, hyoung⟩ := h
  have := hw.small
  rw [hseq]
  exact hw.missed.remove fun x hx => ⟨by omega, by omega⟩

private theorem not_held (h : Placed dp c) (hend : c.rxAckPack.rxWinEndIdx < dp.idx) :
    ∀ e ∈ c.rxWin, e.idx ≠ dp.idx := by
  intro e he
  have := (h.window.held e he).2.2
  omega

theorem mem_append_iff (h : Placed dp c) (hend : c.rxAckPack.rxWinEndIdx < dp.idx) (d : DataPacket) :
    d ∈ c.rxWin ++ [dp] ↔ d ∈ c.rxWin ∨
      (d = dp ∧ c.rxAckPack.rxWinStartIdx ≤ dp.idx ∧ ∀ e ∈ c.rxWin, e.idx ≠ dp.idx) := by
  have hs : c.rxAckPack.rxWinStartIdx ≤ dp.idx := by
    have := h.window.startLe
    omega
  simp only [List.mem_append, List.mem_singleton, hs, true_and]
  exact or_congr_right ⟨fun hd => ⟨hd, h.not_held hend⟩, fun hd => hd.1⟩

private theorem stored_next (h : Placed dp c) (hn : dp.idx = c.rxAckPack.rxWinEndIdx + 1) :
    Stored dp c (storeData dp c).ch := by
  rw [storeData]
  simp only
  rw [if_pos (h.eq_next_iff.mpr hn), if_neg (h.not_gt_limit (by omega))]
  refine ⟨h.window.append h.seq (by omega) h.ahead (h.missed_remove.congr fun x => ?_), ?_,
    h.mem_append_iff (by omega)⟩
  · constructor
    · rintro ⟨⟨h2, h3, h4⟩, h5⟩
      exact ⟨h2, by omega, h4⟩
    · rintro ⟨h2, h3, h4⟩
      exact ⟨⟨h2, by omega, h4⟩, by omega⟩
  · simp only
    omega

private theorem stored_gap (h : Placed dp c) (hn : c.rxAckPack.rxWinEndIdx + 1 < dp.idx) :
    Stored dp c (storeData dp c).ch := by
  have hspan := h.window.span
  have hsmall := h.window.small
  obtain ⟨k, hk⟩ : ∃ k, dp.idx = k + 1 := ⟨dp.idx - 1, by omega⟩
  -- the end was received, so the new gap does not touch an older one
  have hgap := h.missed_remove.add (f := c.rxAckPack.rxWinEndIdx + 1) (t := k) (by omega) fun x hx => by
    obtain ⟨⟨hx1, hx2, hx3⟩, _⟩ := hx
    obtain ⟨d, hd, hde⟩ := h.window.last (by omega)
    have := hx3 d hd
    exact ⟨by omega, by omega⟩
  have hpred : dp.seq - 1 = seqOf k := by rw [h.seq, hk, SeqNum.seqOf_pred]
  have hsr : c.rxAckPack.rxWinEnd + 1 = seqOf (c.rxAckPack.rxWinEndIdx + 1) := by
    rw [h.window.endSeq, SeqNum.seqOf_succ]
  rw [← hpred, ← hsr] at hgap
  rw [storeData]
  simp only
  rw [if_neg (fun he => by have := h.eq_next_iff.mp he; omega), if_pos (h.gt_next_iff.mpr hn),
    if_neg (h.not_gt_limit (by omega))]
  refine ⟨h.window.append h.seq (by omega) h.ahead (hgap.congr fun x => ?_), ?_,
    h.mem_append_iff (by omega)⟩
  · constructor
    · rintro (⟨⟨h3, h4, h5⟩, h6⟩ | h3)
      · exact ⟨h3, by omega, h5⟩
      · refine ⟨by have := h.window.startLe; omega, by omega, fun d hd => ?_⟩
        have := (h.window.held d hd).2.2
        omega
    · rintro ⟨h3, h4, h5⟩
      by_cases hx : x ≤ c.rxAckPack.rxWinEndIdx
      · exact .inl ⟨⟨h3, hx, h5⟩, by omega⟩
      · exact .inr ⟨by omega, by omega⟩
  · simp only
    omega

/-- The window of an ignored packet: only its own number leaves the miss list, where
it was not. -/
private theorem window_ignored (h : Placed dp c)
    (hn : dp.idx < c.rxAckPack.rxWinStartIdx ∨ ∃ d ∈ c.rxWin, d.idx = dp.idx) :
    RxWindow { c.rxAckPack with missedSeq := c.rxAckPack.missedSeq.remove dp.seq } c.rxWin := by
  refine { h.window with missed := h.missed_remove.congr fun x => ?_ }
  constructor
  · exact fun hx => hx.1
  · intro hx
    refine ⟨hx, ?_⟩
    rintro rfl
    rcases hn with hn | ⟨d, hd, hde⟩
    · exact absurd hx.1 (Nat.not_le.mpr hn)
    · exact hx.2.2 d hd hde

private theorem stored_old (h : Placed dp c) (hn : dp.idx < c.rxAckPack.rxWinStartIdx) :
    Stored dp c (storeData dp c).ch := by
  have hle := h.window.startLe
  rw [storeData]
  simp only
  rw [if_neg (fun he => by have := h.eq_next_iff.mp he; omega),
    if_neg (fun he => by have := h.gt_next_iff.mp he; omega), if_pos (h.lt_start_iff.mpr hn)]
  refine ⟨h.window_ignored (.inl hn), by simp only; omega, fun d => ⟨.inl, ?_⟩⟩
  rintro (hd | ⟨_, hd, _⟩)
  · exact hd
  · omega

private theorem stored_inside (h : Placed dp c) (hs : c.rxAckPack.rxWinStartIdx ≤ dp.idx)
    (he : dp.idx ≤ c.rxAckPack.rxWinEndIdx) : Stored dp c (storeData dp c).ch := by
  have hscan := scanStop_any h.seq h.held_near h.window.sorted
  rw [storeData]
  simp only
  rw [if_neg (fun hh => by have := h.eq_next_iff.mp hh; omega),
    if_neg (fun hh => by have := h.gt_next_iff.mp hh; omega),
    if_neg (fun hh => by have := h.lt_start_iff.mp hh; omega)]
  by_cases hheld : ∃ d ∈ c.rxWin, d.idx = dp.idx
  · rw [if_pos (hscan.mpr hheld)]
    refine ⟨h.window_ignored (.inr hheld), by simp only; omega, fun d => ⟨.inl, ?_⟩⟩
    rintro (hd | ⟨_, _, hd⟩)
    · exact hd
    · obtain ⟨e, hem, hee⟩ := hheld
      exact absurd hee (hd e hem)
  · rw [if_neg (fun hh => hheld (hscan.mp hh))]
    have hne : ∀ d ∈ c.rxWin, d.idx ≠ dp.idx := fun d hd hde => hheld ⟨d, hd, hde⟩
    have hsmall := h.window.small
    have hspan := h.window.span
    have hrem := h.missed_remove
    rw [h.seq] at hrem
    have hrem2 := hrem.remove (n := dp.idx) fun x hx => ⟨by omega, by omega⟩
    rw [← h.seq] at hrem2
    refine ⟨{ h.window with
      sorted := sorted_insertSorted h.seq h.held_near hne h.window.sorted
      held := ?_, last := ?_, missed := hrem2.congr fun x => ?_ }, by simp only; omega, fun d => ?_⟩
    · intro d hd
      rcases mem_insertSorted.mp hd with rfl | hd
      · exact ⟨h.seq, hs, he⟩
      · exact h.window.held d hd
    · intro hse
      obtain ⟨d, hd, hde⟩ := h.window.last hse
      exact ⟨d, mem_insertSorted.mpr (.inr hd), hde⟩
    · constructor
      · rintro ⟨⟨⟨h6, h7, h8⟩, h9⟩, _⟩
        refine ⟨h6, h7, fun d hd => ?_⟩
        rcases mem_insertSorted.mp hd with rfl | hd
        · exact Ne.symm h9
        · exact h8 d hd
      · rintro ⟨h6, h7, h8⟩
        have h9 : dp.idx ≠ x := h8 dp (mem_insertSorted.mpr (.inl rfl))
        exact ⟨⟨⟨h6, h7, fun d hd => h8 d (mem_insertSorted.mpr (.inr hd))⟩, h9.symm⟩, h9.symm⟩
    · rw [mem_insertSorted]
      constructor
      · rintro (rfl | hd)
        · exact .inr ⟨rfl, hs, hne⟩
        · exact .inl hd
      · rintro (hd | ⟨hd, _⟩)
        · exact .inr hd
        · exact .inl hd

/-- The four ways of a packet: next in line, beyond a gap, consumed already, and
inside the window. -/
theorem stored (h : Placed dp c) : Stored dp c (storeData dp c).ch := by
  by_cases h1 : dp.idx = c.rxAckPack.rxWinEndIdx + 1
  · exact h.stored_next h1
  by_cases h2 : c.rxAckPack.rxWinEndIdx + 1 < dp.idx
  · exact h.stored_gap h2
  by_cases h3 : dp.idx < c.rxAckPack.rxWinStartIdx
  · exact h.stored_old h3
  · exact h.stored_inside (by omega) (by omega)

end Placed
end Channel

/-- The bytes of the packets before count `n`. -/
def streamBefore (content : Nat → List UInt8) (n : Nat) : List UInt8 :=
  (List.range' 1 (n - 1)).flatMap content

theorem streamBefore_succ (content : Nat → List UInt8) {n : Nat} (hn : 1 ≤ n) :
    streamBefore content (n + 1) = streamBefore content n ++ content n := by
  obtain ⟨m, rfl⟩ : ∃ m, n = m + 1 := ⟨n - 1, by omega⟩
  simp only [streamBefore, Nat.add_sub_cancel, List.range'_1_concat, List.flatMap_append,
    List.flatMap_cons, List.flatMap_nil, List.append_nil, Nat.add_comm 1 m]

/-- The packets of a window starting at `start` hold the contents of their counts;
of the first one, `pre` has been read already. -/
structure WinData (content : Nat → List UInt8) (pre : List UInt8) (start : Nat)
    (win : List DataPacket) : Prop where
  first : ∀ d ∈ win, d.idx = start → pre ++ d.data = content start
  rest : ∀ d ∈ win, d.idx ≠ start → d.data = content d.idx
  begun : pre ≠ [] → ∃ d ∈ win, d.idx = start

namespace RxWindow
variable {ack : AckPacket} {win : List DataPacket} {d : DataPacket}

/-- Popping the first packet once it is read. -/
theorem pop (h : RxWindow ack (d :: win)) (hd : d.seq = ack.rxWinStart) :
    d.idx = ack.rxWinStartIdx ∧
      RxWindow { ack with
        rxWinStart := ack.rxWinStart + 1, rxWinStartIdx := ack.rxWinStartIdx + 1 } win := by
  obtain ⟨hseq, hlo, hhi⟩ := h.held d List.mem_cons_self
  have hspan := h.span
  have hsmall := h.small
  have hidx : d.idx = ack.rxWinStartIdx := by
    have near : SeqNum.Near d.idx ack.rxWinStartIdx := ⟨by omega, by omega⟩
    rwa [hseq, h.startSeq, SeqNum.seqOf_inj near] at hd
  obtain ⟨hlt, hsorted⟩ := List.pairwise_cons.mp h.sorted
  refine ⟨hidx, ?_, h.endSeq, h.small, ?_, ?_, hsorted, ?_, ?_, ?_⟩
  · simp only
    rw [h.startSeq, SeqNum.seqOf_succ]
  · simp only
    omega
  · simp only
    omega
  · intro e he
    obtain ⟨h1, h2, h3⟩ := h.held e (List.mem_cons_of_mem _ he)
    have := hlt e he
    exact ⟨h1, by simp only; omega, h3⟩
  · intro hle
    obtain ⟨e, he, hee⟩ := h.last (by simp only at hle; omega)
    rcases List.mem_cons.mp he with rfl | he
    · simp only at hle
      omega
    · exact ⟨e, he, hee⟩
  · refine h.missed.congr fun x => ?_
    simp only [List.mem_cons, forall_eq_or_imp]
    constructor
    · rintro ⟨h1, h2, h3, h4⟩
      exact ⟨by omega, h2, h4⟩
    · rintro ⟨h1, h2, h3⟩
      exact ⟨by omega, h2, by omega, h3⟩

/-- Reading part of the first packet leaves the window as it is. -/
theorem shorten (h : RxWindow ack (d :: win)) (data : List UInt8) :
    RxWindow ack ({ d with data := data } :: win) := by
  refine { h with
    sorted := ?_, held := ?_, last := ?_, missed := h.missed.congr fun x => by simp }
  · obtain ⟨hlt, hsorted⟩ := List.pairwise_cons.mp h.sorted
    exact List.pairwise_cons.mpr ⟨hlt, hsorted⟩
  · intro e he
    rcases List.mem_cons.mp he with rfl | he
    · exact h.held d List.mem_cons_self
    · exact h.held e (List.mem_cons_of_mem _ he)
  · intro hle
    obtain ⟨e, he, hee⟩ := h.last hle
    rcases List.mem_cons.mp he with rfl | he
    · exact ⟨_, List.mem_cons_self, hee⟩
    · exact ⟨e, List.mem_cons_of_mem _ he, hee⟩

end RxWindow

namespace Channel

/-- What `read` leaves: only the start of the window moves, over packets it consumed. -/
structure ReadFrom (content : Nat → List UInt8) (ack : AckPacket) (win : List DataPacket)
    (pre bytes : List UInt8) (win' : List DataPacket) (ack' : AckPacket) : Prop where
  window : RxWindow ack' win'
  frame : ack' = { ack with
    rxWinStart := ack'.rxWinStart, rxWinStartIdx := ack'.rxWinStartIdx }
  startLe : ack.rxWinStartIdx ≤ ack'.rxWinStartIdx
  subset : ∀ d ∈ win', ∃ e ∈ win, e.idx = d.idx
  gone : ∀ d ∈ win, d.idx < ack'.rxWinStartIdx ∨ ∃ e ∈ win', e.idx = d.idx
  passed : ∀ x, ack.rxWinStartIdx ≤ x → x < ack'.rxWinStartIdx → ∃ d ∈ win, d.idx = x
  stream : ∃ pre', WinData content pre' ack'.rxWinStartIdx win' ∧
    streamBefore content ack.rxWinStartIdx ++ pre ++ bytes =
      streamBefore content ack'.rxWinStartIdx ++ pre'

section
variable {content : Nat → List UInt8} {ack ack' : AckPacket} {win win' : List DataPacket} {d : DataPacket}
  {pre bytes : List UInt8}

/-- Nothing is copied. -/
theorem ReadFrom.refl (h : RxWindow ack win) (hd : WinData content pre ack.rxWinStartIdx win) :
    ReadFrom content ack win pre [] win ack :=
  ⟨h, rfl, Nat.le_refl _, fun e he => ⟨e, he, rfl⟩, fun e he => .inr ⟨e, he, rfl⟩,
    fun x h1 h2 => by omega, pre, hd, by simp⟩

/-- Once the packet at the start is consumed, nothing of the next one has been copied. -/
theorem winData_pop (h : RxWindow ack (d :: win)) (hidx : d.idx = ack.rxWinStartIdx)
    (hd : WinData content pre ack.rxWinStartIdx (d :: win)) : WinData content [] (ack.rxWinStartIdx + 1) win := by
  have hlt := (List.pairwise_cons.mp h.sorted).1
  refine ⟨fun e he hee => ?_, fun e he _ => ?_, fun hne => absurd rfl hne⟩
  · rw [List.nil_append, ← hee]
    exact hd.rest e (List.mem_cons_of_mem _ he) (by omega)
  · have := hlt e he
    exact hd.rest e (List.mem_cons_of_mem _ he) (by omega)

/-- The packet at the start is consumed, and `read` goes on behind it. -/
theorem ReadFrom.whole (hidx : d.idx = ack.rxWinStartIdx) (hpos : 1 ≤ ack.rxWinStartIdx)
    (hd : WinData content pre ack.rxWinStartIdx (d :: win))
    (h : ReadFrom content
      { ack with rxWinStart := ack.rxWinStart + 1, rxWinStartIdx := ack.rxWinStartIdx + 1 } win [] bytes win' ack') :
    ReadFrom content ack (d :: win) pre (d.data ++ bytes) win' ack' := by
  obtain ⟨hw, hf, hle, hsub, hgone, hpassed, pre', hd', hs⟩ := h
  have hfirst := hd.first d List.mem_cons_self hidx
  simp only at hle hpassed hs
  refine ⟨hw, hf, by omega, fun e he => ?_, fun e he => ?_, fun x h1 h2 => ?_, pre', hd', ?_⟩
  · obtain ⟨e', he', hee⟩ := hsub e he
    exact ⟨e', List.mem_cons_of_mem _ he', hee⟩
  · rcases List.mem_cons.mp he with rfl | he
    · exact .inl (by omega)
    · exact hgone e he
  · by_cases hx : x = ack.rxWinStartIdx
    · exact ⟨d, List.mem_cons_self, by omega⟩
    · obtain ⟨e, he, hee⟩ := hpassed x (by omega) h2
      exact ⟨e, List.mem_cons_of_mem _ he, hee⟩
  · rw [← hs, streamBefore_succ content hpos, ← hfirst]
    simp

/-- A part of the packet at the start is copied, and the rest of it stays. -/
theorem ReadFrom.part (h : RxWindow ack (d :: win)) (hidx : d.idx = ack.rxWinStartIdx)
    (hd : WinData content pre ack.rxWinStartIdx (d :: win)) (len : Nat) :
    ReadFrom content ack (d :: win) pre (d.data.take len) ({ d with data := d.data.drop len } :: win) ack := by
  have hfirst := hd.first d List.mem_cons_self hidx
  have hlt := (List.pairwise_cons.mp h.sorted).1
  refine ⟨h.shorten _, rfl, Nat.le_refl _, fun e he => ?_, fun e he => .inr ?_, fun x h1 h2 => by omega,
    pre ++ d.data.take len, ⟨fun e he hee => ?_, fun e he hee => ?_, fun _ => ⟨_, List.mem_cons_self, hidx⟩⟩, by simp⟩
  · rcases List.mem_cons.mp he with rfl | he
    · exact ⟨d, List.mem_cons_self, rfl⟩
    · exact ⟨e, List.mem_cons_of_mem _ he, rfl⟩
  · rcases List.mem_cons.mp he with rfl | he
    · exact ⟨_, List.mem_cons_self, rfl⟩
    · exact ⟨e, List.mem_cons_of_mem _ he, rfl⟩
  · rcases List.mem_cons.mp he with rfl | he
    · simpa using hfirst
    · have := hlt e he
      omega
  · rcases List.mem_cons.mp he with rfl | he
    · exact absurd hidx hee
    · exact hd.rest e (List.mem_cons_of_mem _ he) hee

end

/-- `read` copies the stream in order, over any number of packets. -/
theorem readLoop_spec (content : Nat → List UInt8) {ack : AckPacket} {win : List DataPacket}
    {pre : List UInt8} (len : Nat) (h : RxWindow ack win) (hpos : 1 ≤ ack.rxWinStartIdx)
    (hd : WinData content pre ack.rxWinStartIdx win) :
    ReadFrom content ack win pre (readLoop ack win len).1 (readLoop ack win len).2.2.1
      (readLoop ack win len).2.2.2 := by
  induction win generalizing ack pre len with
  | nil => exact .refl h hd
  | cons d rest ih =>
    rw [readLoop]
    by_cases hstop : len = 0 ∨ d.seq ≠ ack.rxWinStart
    · rw [if_pos hstop]
      exact .refl h hd
    rw [if_neg hstop]
    obtain ⟨hlen, hseq⟩ := not_or.mp hstop
    obtain ⟨hidx, hpop⟩ := h.pop (not_not.mp hseq)
    simp only
    split_ifs with hdone
    · have hclen : min len d.data.length = d.data.length := by omega
      have hrest := ih (len - min len d.data.length) hpop (by simp only; omega) (winData_pop h hidx hd)
      rw [hclen, List.take_length] at *
      exact .whole hidx hpos hd hrest
    · exact .part h hidx hd _

end Channel
end Tornet.Udt
