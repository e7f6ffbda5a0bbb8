import Tornet.MissList

/-! What the operations of a `miss_list` do to one whose ranges are in order. -/
namespace Tornet.MissList
open Library

/-- How far a number is ahead of `lo`. -/
def offset (lo x : SeqNum) : Nat := (x - lo).toNat

/-- Ranges one behind the other, within half the number space from `lo` on. -/
structure Ordered (lo : SeqNum) (l : MissList) : Prop where
  range : ∀ r ∈ l, offset lo r.1 ≤ offset lo r.2 ∧ offset lo r.2 < 2 ^ 15
  ascending : l.Pairwise fun r s => offset lo r.2 < offset lo s.1

/-- The ranges are in order, from wherever they are counted. -/
def WellFormed (l : MissList) : Prop := ∃ lo, Ordered lo l

instance (lo : SeqNum) (l : MissList) : Decidable (Ordered lo l) :=
  -- over the members of the list, not over all pairs of numbers
  have : Decidable (∀ r ∈ l, offset lo r.1 ≤ offset lo r.2 ∧ offset lo r.2 < 2 ^ 15) := List.decidableBAll _ l
  decidable_of_iff ((∀ r ∈ l, offset lo r.1 ≤ offset lo r.2 ∧ offset lo r.2 < 2 ^ 15) ∧
      l.Pairwise fun r s => offset lo r.2 < offset lo s.1)
    ⟨fun h => ⟨h.1, h.2⟩, fun h => ⟨h.range, h.ascending⟩⟩

/-! ### Counts instead of numbers -/

/-- Every number is the residue of a count from `n` on. -/
theorem seqOf_add_offset (n : Nat) (x : SeqNum) : seqOf (n + offset (seqOf n) x) = x := by
  rw [SeqNum.seqOf_add, offset, SeqNum.seqOf_toNat]
  bv_omega

theorem seqOf_offset (lo x : SeqNum) : seqOf (lo.toNat + offset lo x) = x := by
  have h := seqOf_add_offset lo.toNat x
  rwa [SeqNum.seqOf_toNat] at h

theorem offset_seqOf {n k : Nat} (hk : n ≤ k) (hlt : k < n + 2 ^ 16) : offset (seqOf n) (seqOf k) = k - n :=
  SeqNum.toNat_sub_seqOf hk hlt

/-- Counts within a turn have different residues. -/
theorem seqOf_eq_iff {n j k : Nat} (hj : n ≤ j ∧ j < n + 2 ^ 16) (hk : n ≤ k ∧ k < n + 2 ^ 16) :
    seqOf j = seqOf k ↔ j = k := by
  rcases Nat.le_total j k with hle | hle
  · exact Circular.wrap_inj hle (by omega)
  · rw [eq_comm, seqOf, seqOf, Circular.wrap_inj hle (by omega), eq_comm]

theorem offset_lt (lo x : SeqNum) : offset lo x < 2 ^ 16 := (x - lo).isLt

/-- Nonempty intervals within half the number space from `n` on. -/
def Inside (n : Nat) (q : List (Nat × Nat)) : Prop := ∀ r ∈ q, n ≤ r.1 ∧ r.1 ≤ r.2 ∧ r.2 < n + 2 ^ 15

theorem Inside.cons_iff {n : Nat} {r : Nat × Nat} {q : List (Nat × Nat)} :
    Inside n (r :: q) ↔ (n ≤ r.1 ∧ r.1 ≤ r.2 ∧ r.2 < n + 2 ^ 15) ∧ Inside n q :=
  List.forall_mem_cons

/-- The counts behind a list in order. -/
theorem Ordered.exists_intervals {lo : SeqNum} {l : MissList} (h : Ordered lo l) :
    ∃ q, l = ofIntervals q ∧ Intervals.Ascending q ∧ Inside lo.toNat q := by
  refine ⟨l.map fun r => (lo.toNat + offset lo r.1, lo.toNat + offset lo r.2), ?_, ⟨?_, ?_⟩, ?_⟩
  · rw [ofIntervals, List.map_map]
    conv_lhs => rw [← List.map_id l]
    apply List.map_congr_left
    intro r _
    simp only [Function.comp, seqOf_offset, id]
  · intro r hr
    obtain ⟨t, ht, rfl⟩ := List.mem_map.mp hr
    exact Nat.add_le_add_left (h.range t ht).1 _
  · rw [List.pairwise_map]
    exact h.ascending.imp fun hlt => Nat.add_lt_add_left hlt _
  · intro r hr
    obtain ⟨t, ht, rfl⟩ := List.mem_map.mp hr
    have := h.range t ht
    simp only
    omega

theorem Ordered.of_intervals {n : Nat} {q : List (Nat × Nat)} (ha : Intervals.Ascending q) (hq : Inside n q) :
    Ordered (seqOf n) (ofIntervals q) := by
  have hoff : ∀ r ∈ q, offset (seqOf n) (seqOf r.1) = r.1 - n ∧ offset (seqOf n) (seqOf r.2) = r.2 - n := by
    intro r hr
    have := hq r hr
    exact ⟨offset_seqOf this.1 (by omega), offset_seqOf (by omega) (by omega)⟩
  refine ⟨?_, ?_⟩
  · intro r hr
    obtain ⟨t, ht, rfl⟩ := List.mem_map.mp hr
    have := hq t ht
    rw [(hoff t ht).1, (hoff t ht).2]
    omega
  · rw [ofIntervals, List.pairwise_map]
    refine ha.2.imp_of_mem fun {r s} hr hs hlt => ?_
    have hr' := hq r hr
    have hs' := hq s hs
    rw [(hoff r hr).2, (hoff s hs).1]
    omega

/-- In a well-formed list every range ends before the later ones begin. -/
theorem WellFormed.ascending_of {n : Nat} {q : List (Nat × Nat)} (hw : WellFormed (ofIntervals q)) (hq : Inside n q) :
    Intervals.Ascending q := by
  obtain ⟨lo, h⟩ := hw
  refine ⟨fun r hr => (hq r hr).2.1, ?_⟩
  have hp := h.ascending
  rw [ofIntervals, List.pairwise_map] at hp
  refine hp.imp_of_mem fun {r s} hr hs hlt => ?_
  have hrange := h.range (seqOf s.1, seqOf s.2) (List.mem_map_of_mem hs)
  have hr' := hq r hr
  have hs' := hq s hs
  -- `s.1` is less than half the number space ahead of `r.2` from `lo`, so it is not behind it from `n`
  by_contra hle
  have hback : (seqOf r.2 - seqOf s.1).toNat = r.2 - s.1 := SeqNum.toNat_sub_seqOf (by omega) (by omega)
  simp only [offset] at hlt hrange
  bv_omega

/-- Within ranges of less than half the number space the comparisons of `contains` are exact. -/
theorem contains_iff_listed {l : MissList} {x : SeqNum} (h : ∀ r ∈ l, (r.2 - r.1).toNat < 2 ^ 15) :
    l.contains x = true ↔ Listed l x := by
  rw [contains, List.any_eq_true, Listed]
  refine exists_congr fun r => and_congr_right fun hr => ?_
  have hlen := h r hr
  rw [Bool.and_eq_true, SeqNum.le_iff, SeqNum.ge, decide_eq_true_eq]
  have hge : SeqNum.distance r.2 x ≤ 0 ↔ (x - r.2).toNat = 0 ∨ 2 ^ 15 ≤ (x - r.2).toNat := by
    rw [SeqNum.distance, Circular.distance, BitVec.toInt_eq_toNat_cond]
    split_ifs <;> omega
  rw [hge]
  bv_omega

theorem stores_covers {q : List (Nat × Nat)} (ha : Intervals.Ascending q) :
    Stores (ofIntervals q) (Intervals.Covers q) := ⟨q, rfl, ha, fun _ => .rfl⟩

/-- The length of a range is that of its interval. -/
theorem length_range {n : Nat} {q : List (Nat × Nat)} (hq : Inside n q) {r : Nat × Nat} (hr : r ∈ q) :
    (seqOf r.2 - seqOf r.1).toNat = r.2 - r.1 := by
  have := hq r hr
  exact SeqNum.toNat_sub_seqOf this.2.1 (by omega)

theorem contains_ofIntervals {n k : Nat} {q : List (Nat × Nat)} (hq : Inside n q) (hk : n ≤ k) (hlt : k < n + 2 ^ 16) :
    (ofIntervals q).contains (seqOf k) = true ↔ Intervals.Covers q k := by
  rw [contains_iff_listed]
  · constructor
    · rintro ⟨t, ht, hle⟩
      obtain ⟨r, hr, rfl⟩ := List.mem_map.mp ht
      have hin := hq r hr
      rw [BitVec.le_def, length_range hq hr] at hle
      refine ⟨r, hr, ?_⟩
      rcases Nat.lt_or_ge k r.1 with hbelow | habove
      · have hback : (seqOf r.1 - seqOf k).toNat = r.1 - k := SeqNum.toNat_sub_seqOf (by omega) (by omega)
        simp only at hle
        bv_omega
      · have hfwd : (seqOf k - seqOf r.1).toNat = k - r.1 := SeqNum.toNat_sub_seqOf habove (by omega)
        simp only at hle
        omega
    · rintro ⟨r, hr, h1, h2⟩
      refine ⟨(seqOf r.1, seqOf r.2), List.mem_map_of_mem hr, ?_⟩
      have hin := hq r hr
      rw [BitVec.le_def, length_range hq hr, SeqNum.toNat_sub_seqOf h1 (by omega)]
      omega
  · intro t ht
    obtain ⟨r, hr, rfl⟩ := List.mem_map.mp ht
    have := hq r hr
    rw [length_range hq hr]
    omega

/-! ### `add` -/

/-- `miss_list::add` on counts. -/
def addCounts (f s : Nat) : List (Nat × Nat) → List (Nat × Nat)
  | [] => [(f, s)]
  | r :: rest =>
    if r.2 + 1 < f then r :: addCounts f s rest
    else if r.2 + 1 = f then (r.1, s) :: rest
    else match rest with
      | [] => [r, (f, s)]
      | t :: tail => if s + 1 = t.1 then r :: (s, t.2) :: tail else r :: (f, s) :: t :: tail

/-- The first range that does not end before `start - 1` ends there, and `stop` is before the next one; or it has `start`
in it and ends at `stop - 1`, and the next one begins at `stop + 1`. -/
def Fits (start stop : SeqNum) : MissList → Prop
  | [] => True
  | r :: rest =>
    if SeqNum.lt (r.2 + 1) start then Fits start stop rest
    else r.2 + 1 = start ∧ (∀ t ∈ rest.head?, SeqNum.lt stop t.1 = true) ∨
      SeqNum.le r.1 start = true ∧ r.2 + 1 = stop ∧ ∃ t ∈ rest.head?, stop + 1 = t.1

def FitsCounts (f s : Nat) : List (Nat × Nat) → Prop
  | [] => True
  | r :: rest =>
    if r.2 + 1 < f then FitsCounts f s rest
    else r.2 + 1 = f ∧ (∀ t ∈ rest.head?, s < t.1) ∨ r.1 ≤ f ∧ r.2 + 1 = s ∧ ∃ t ∈ rest.head?, s + 1 = t.1

section
variable {n f s : Nat} {q : List (Nat × Nat)}

private theorem addCounts_ofIntervals (hq : Inside n q) (hf : n ≤ f) (hfs : f ≤ s) (hs : s < n + 2 ^ 15) :
    add (seqOf f) (seqOf s) (ofIntervals q) = ofIntervals (addCounts f s q) := by
  induction q with
  | nil => rfl
  | cons r rest ih =>
    obtain ⟨hr, hrest⟩ := Inside.cons_iff.mp hq
    have near : SeqNum.Near (r.2 + 1) f := ⟨by omega, by omega⟩
    have heq : seqOf (r.2 + 1) = seqOf f ↔ r.2 + 1 = f := SeqNum.seqOf_inj near
    simp only [ofIntervals, List.map_cons] at ih ⊢
    rw [add.eq_def, addCounts.eq_def]
    simp only [← SeqNum.seqOf_succ, SeqNum.lt_seqOf near, decide_eq_true_eq, heq]
    split_ifs with hlt hend
    · rw [List.map_cons, ih hrest]
    · rw [List.map_cons]
    · cases rest with
      | nil => rfl
      | cons t tail =>
        have ht := (Inside.cons_iff.mp hrest).1
        have hnext : seqOf (s + 1) = seqOf t.1 ↔ s + 1 = t.1 := SeqNum.seqOf_inj ⟨by omega, by omega⟩
        simp only [List.map_cons, hnext]
        split_ifs <;> rfl

private theorem fits_ofIntervals (hq : Inside n q) (hf : n ≤ f) (hfs : f ≤ s) (hs : s < n + 2 ^ 15) :
    Fits (seqOf f) (seqOf s) (ofIntervals q) ↔ FitsCounts f s q := by
  induction q with
  | nil => exact .rfl
  | cons r rest ih =>
    obtain ⟨hr, hrest⟩ := Inside.cons_iff.mp hq
    have hsucc : SeqNum.Near (r.2 + 1) f := ⟨by omega, by omega⟩
    have hfirst : SeqNum.Near r.1 f := ⟨by omega, by omega⟩
    have hstop : SeqNum.Near (r.2 + 1) s := ⟨by omega, by omega⟩
    have hhead : (∀ t ∈ (ofIntervals rest).head?, SeqNum.lt (seqOf s) t.1 = true) ↔ ∀ t ∈ rest.head?, s < t.1 := by
      cases rest with
      | nil => simp [ofIntervals]
      | cons t tail =>
        have ht := (Inside.cons_iff.mp hrest).1
        have near : SeqNum.Near s t.1 := ⟨by omega, by omega⟩
        simp [ofIntervals, SeqNum.lt_seqOf near]
    have hnext : (∃ t ∈ (ofIntervals rest).head?, seqOf (s + 1) = t.1) ↔ ∃ t ∈ rest.head?, s + 1 = t.1 := by
      cases rest with
      | nil => simp [ofIntervals]
      | cons t tail =>
        have ht := (Inside.cons_iff.mp hrest).1
        have near : seqOf (s + 1) = seqOf t.1 ↔ s + 1 = t.1 := SeqNum.seqOf_inj ⟨by omega, by omega⟩
        simp [ofIntervals, near]
    have ih := ih hrest
    simp only [ofIntervals, List.map_cons] at ih hhead hnext ⊢
    simp only [Fits, FitsCounts, ← SeqNum.seqOf_succ, SeqNum.lt_seqOf hsucc, SeqNum.le_seqOf hfirst, SeqNum.seqOf_inj hsucc,
      SeqNum.seqOf_inj hstop, decide_eq_true_eq, hhead, hnext, ih]

/-- `add` covers nothing that was not covered or added. -/
theorem covers_of_addCounts (hfs : f ≤ s) {k : Nat} (h : Intervals.Covers (addCounts f s q) k) :
    Intervals.Covers q k ∨ f ≤ k ∧ k ≤ s := by
  induction q with
  | nil => simpa [addCounts] using h
  | cons r rest ih =>
    rw [addCounts.eq_def] at h
    simp only at h
    split_ifs at h with hlt hend
    · rw [Intervals.covers_cons] at h ⊢
      rcases h with h | h
      · exact .inl (.inl h)
      · exact (ih h).imp_left .inr
    · rw [Intervals.covers_cons] at h ⊢
      rcases h with h | h
      · simp only at h
        omega
      · exact .inl (.inr h)
    · cases rest with
      | nil =>
        simp only [Intervals.covers_cons, Intervals.covers_nil] at h ⊢
        tauto
      | cons t tail =>
        simp only at h
        split_ifs at h with hnext
        · simp only [Intervals.covers_cons] at h ⊢
          rcases h with h | h | h
          · exact .inl (.inl h)
          · omega
          · exact .inl (.inr (.inr h))
        · simp only [Intervals.covers_cons] at h ⊢
          tauto

/-- The added range and nothing else is new, and the intervals are in order again. -/
def AddsExactly (f s : Nat) (q q' : List (Nat × Nat)) : Prop :=
  (∀ k, Intervals.Covers q' k ↔ Intervals.Covers q k ∨ f ≤ k ∧ k ≤ s) ∧ Intervals.Ascending q'

/-- An interval that ends before the range begins makes no difference. -/
theorem addsExactly_cons {r : Nat × Nat} (ha : Intervals.Ascending (r :: q)) (hfs : f ≤ s) (hr : r.2 < f) :
    AddsExactly f s (r :: q) (r :: addCounts f s q) ↔ AddsExactly f s q (addCounts f s q) := by
  have habove : ∀ k, Intervals.Covers (addCounts f s q) k → r.2 < k := by
    intro k hk
    rcases covers_of_addCounts hfs hk with hk | hk
    · exact Intervals.lt_of_covers_tail ha hk
    · omega
  have hrange := (Intervals.ascending_cons.mp ha).1
  constructor
  · rintro ⟨hcov, hasc⟩
    refine ⟨fun k => ⟨covers_of_addCounts hfs, fun hk => ?_⟩, (Intervals.ascending_cons.mp hasc).2.2⟩
    have hk' : r.2 < k := by
      rcases hk with hk | hk
      · exact Intervals.lt_of_covers_tail ha hk
      · omega
    have hnew : Intervals.Covers (r :: addCounts f s q) k :=
      (hcov k).mpr (hk.imp_left fun h => (Intervals.covers_cons r q k).mpr (.inr h))
    rcases (Intervals.covers_cons r _ k).mp hnew with h | h
    · omega
    · exact h
  · rintro ⟨hcov, hasc⟩
    refine ⟨fun k => ?_, Intervals.ascending_cons.mpr ⟨hrange, fun t ht => ?_, hasc⟩⟩
    · rw [Intervals.covers_cons, Intervals.covers_cons, hcov k, or_assoc]
    · exact habove t.1 ⟨t, ht, Nat.le_refl _, hasc.1 t ht⟩

/-- The range extends the interval before it. -/
theorem addsExactly_extend {r : Nat × Nat} (ha : Intervals.Ascending (r :: q)) (hfs : f ≤ s) (hr : r.2 + 1 = f) :
    AddsExactly f s (r :: q) ((r.1, s) :: q) ↔ ∀ t ∈ q.head?, s < t.1 := by
  obtain ⟨hrange, -, hasc⟩ := Intervals.ascending_cons.mp ha
  have hcov : ∀ k, Intervals.Covers ((r.1, s) :: q) k ↔ Intervals.Covers (r :: q) k ∨ f ≤ k ∧ k ≤ s := by
    intro k
    simp only [Intervals.covers_cons]
    constructor
    · rintro (h | h)
      · omega
      · exact .inl (.inr h)
    · rintro ((h | h) | h)
      · left
        omega
      · exact .inr h
      · left
        omega
  constructor
  · rintro ⟨-, hnew⟩ t ht
    exact (Intervals.ascending_cons.mp hnew).2.1 t (List.mem_of_mem_head? ht)
  · intro hhead
    refine ⟨hcov, Intervals.ascending_cons.mpr ⟨by simp only; omega, ?_, hasc⟩⟩
    cases q with
    | nil => simp
    | cons t tail =>
      have ht : s < t.1 := hhead t rfl
      obtain ⟨htr, hbehind, -⟩ := Intervals.ascending_cons.mp hasc
      intro u hu
      rcases List.mem_cons.mp hu with rfl | hu
      · exact ht
      · have := hbehind u hu
        simp only
        omega

/-- The next interval is moved to the end of the range, which is enough only if nothing else of it was missing. -/
theorem addsExactly_move {r t : Nat × Nat} (ha : Intervals.Ascending (r :: t :: q)) (hfr : f ≤ r.2)
    (ht : s + 1 = t.1) : AddsExactly f s (r :: t :: q) (r :: (s, t.2) :: q) ↔ r.1 ≤ f ∧ r.2 + 1 = s := by
  obtain ⟨hrange, hbehind, hasc⟩ := Intervals.ascending_cons.mp ha
  obtain ⟨htr, htail, hq⟩ := Intervals.ascending_cons.mp hasc
  have hrt : r.2 < t.1 := hbehind t List.mem_cons_self
  constructor
  · rintro ⟨hcov, hnew⟩
    have hrs : r.2 < s := (Intervals.ascending_cons.mp hnew).2.1 (s, t.2) List.mem_cons_self
    -- what lies in the range and before `s` has to be in the interval before it
    have hin : ∀ k, f ≤ k → k < s → r.1 ≤ k ∧ k ≤ r.2 := by
      intro k hfk hks
      have hk := (hcov k).mpr (.inr ⟨hfk, by omega⟩)
      rw [Intervals.covers_cons, Intervals.covers_cons] at hk
      rcases hk with hk | hk | hk
      · exact hk
      · simp only at hk
        omega
      · have := Intervals.lt_of_covers_tail hasc hk
        omega
    have hfirst := hin f (Nat.le_refl f) (by omega)
    refine ⟨hfirst.1, ?_⟩
    by_contra hne
    have := hin (r.2 + 1) (by omega) (by omega)
    omega
  · rintro ⟨hfirst, rfl⟩
    refine ⟨fun k => ?_, Intervals.ascending_cons.mpr ⟨hrange, ?_, Intervals.ascending_cons.mpr ⟨?_, htail, hq⟩⟩⟩
    · simp only [Intervals.covers_cons]
      constructor
      · rintro (h | h | h)
        · exact .inl (.inl h)
        · omega
        · exact .inl (.inr (.inr h))
      · rintro ((h | h | h) | h)
        · exact .inl h
        · right
          left
          omega
        · exact .inr (.inr h)
        · omega
    · intro u hu
      rcases List.mem_cons.mp hu with rfl | hu
      · simp
      · have := htail u hu
        omega
    · simp only
      omega

theorem addsExactly_iff (ha : Intervals.Ascending q) (hfs : f ≤ s) :
    AddsExactly f s q (addCounts f s q) ↔ FitsCounts f s q := by
  induction q with
  | nil => simp [AddsExactly, addCounts, FitsCounts, Intervals.Ascending, hfs]
  | cons r rest ih =>
    rw [addCounts.eq_def, FitsCounts]
    simp only
    split_ifs with hlt hend
    · rw [addsExactly_cons ha hfs (by omega), ih (Intervals.ascending_cons.mp ha).2.2]
    · rw [addsExactly_extend ha hfs hend]
      constructor
      · exact fun h => .inl ⟨hend, h⟩
      · rintro (⟨-, h⟩ | ⟨-, hs, t, ht, htr⟩)
        · exact h
        · intro u hu
          obtain rfl : t = u := Option.some.inj (ht.symm.trans hu)
          omega
    · -- the range begins inside or before the interval, behind which it is put
      have hover : ∀ tail, ¬ AddsExactly f s (r :: rest) (r :: (f, s) :: tail) := by
        rintro tail ⟨-, hnew⟩
        have := (Intervals.ascending_cons.mp hnew).2.1 (f, s) List.mem_cons_self
        simp only at this
        omega
      cases rest with
      | nil => simp [hover [], hend]
      | cons t tail =>
        simp only
        split_ifs with hnext
        · rw [addsExactly_move ha (by omega) hnext]
          simp [hend, hnext]
        · simp [hover (t :: tail), hend, hnext]

private theorem inside_addCounts (hq : Inside n q) (hf : n ≤ f) (hfs : f ≤ s) (hs : s < n + 2 ^ 15) :
    Inside n (addCounts f s q) := by
  induction q with
  | nil => exact Inside.cons_iff.mpr ⟨⟨hf, hfs, hs⟩, hq⟩
  | cons r rest ih =>
    obtain ⟨hr, hrest⟩ := Inside.cons_iff.mp hq
    rw [addCounts.eq_def]
    simp only
    split_ifs with hlt hend
    · exact Inside.cons_iff.mpr ⟨hr, ih hrest⟩
    · exact Inside.cons_iff.mpr ⟨⟨hr.1, by simp only; omega, hs⟩, hrest⟩
    · cases rest with
      | nil => exact Inside.cons_iff.mpr ⟨hr, Inside.cons_iff.mpr ⟨⟨hf, hfs, hs⟩, hrest⟩⟩
      | cons t tail =>
        obtain ⟨ht, htail⟩ := Inside.cons_iff.mp hrest
        simp only
        split_ifs
        · exact Inside.cons_iff.mpr ⟨hr, Inside.cons_iff.mpr ⟨⟨by simp only; omega, by simp only; omega, ht.2.2⟩, htail⟩⟩
        · exact Inside.cons_iff.mpr ⟨hr, Inside.cons_iff.mpr ⟨⟨hf, hfs, hs⟩, hrest⟩⟩

theorem covers_inside (hq : Inside n q) {k : Nat} (h : Intervals.Covers q k) : n ≤ k ∧ k < n + 2 ^ 16 := by
  obtain ⟨r, hr, h1, h2⟩ := h
  have := hq r hr
  omega

/-- The numbers of a range are the residues of its counts. -/
theorem mem_range_iff {k : Nat} (hf : n ≤ f) (hfs : f ≤ s) (hs : s < n + 2 ^ 15) (hk : n ≤ k) (hlt : k < n + 2 ^ 16) :
    seqOf k - seqOf f ≤ seqOf s - seqOf f ↔ f ≤ k ∧ k ≤ s := by
  have hin : Inside n [(f, s)] := Inside.cons_iff.mpr ⟨⟨hf, hfs, hs⟩, by simp [Inside]⟩
  have hcov := contains_ofIntervals hin hk hlt
  rw [contains_iff_listed, Intervals.covers_cons] at hcov
  · simpa [ofIntervals, Listed] using hcov
  · intro r hr
    rw [ofIntervals, List.map_cons, List.map_nil, List.mem_singleton] at hr
    subst hr
    rw [length_range hin List.mem_cons_self]
    simp only
    omega

end

/-- On a list in order, and for a range within its span, `add` adds exactly the range and keeps the list well formed if and
only if the range fits. -/
theorem add_exact_iff {lo start stop : SeqNum} {l : MissList} (hl : Ordered lo l) (hle : offset lo start ≤ offset lo stop)
    (hlt : offset lo stop < 2 ^ 15) :
    ((∀ x, (l.add start stop).contains x = true ↔ l.contains x = true ∨ x - start ≤ stop - start) ∧
      WellFormed (l.add start stop)) ↔ Fits start stop l := by
  obtain ⟨q, rfl, ha, hq⟩ := hl.exists_intervals
  obtain ⟨f, hf⟩ : ∃ f, f = lo.toNat + offset lo start := ⟨_, rfl⟩
  obtain ⟨s, hs⟩ : ∃ s, s = lo.toNat + offset lo stop := ⟨_, rfl⟩
  obtain rfl : start = seqOf f := by rw [hf, seqOf_offset]
  obtain rfl : stop = seqOf s := by rw [hs, seqOf_offset]
  have hnf : lo.toNat ≤ f := by omega
  have hfs : f ≤ s := by omega
  have hsn : s < lo.toNat + 2 ^ 15 := by omega
  have hq' := inside_addCounts hq hnf hfs hsn
  rw [addCounts_ofIntervals hq hnf hfs hsn, fits_ofIntervals hq hnf hfs hsn, ← addsExactly_iff ha hfs]
  refine and_congr ⟨fun h k => ?_, fun h x => ?_⟩ ⟨fun h => h.ascending_of hq', fun h => ⟨_, .of_intervals h hq'⟩⟩
  · by_cases hk : lo.toNat ≤ k ∧ k < lo.toNat + 2 ^ 16
    · rw [← contains_ofIntervals hq' hk.1 hk.2, h, contains_ofIntervals hq hk.1 hk.2, mem_range_iff hnf hfs hsn hk.1 hk.2]
    · refine iff_of_false (fun hc => hk (covers_inside hq' hc)) ?_
      rintro (hc | hc)
      · exact hk (covers_inside hq hc)
      · omega
  · have hk := offset_lt lo x
    obtain ⟨k, hx⟩ : ∃ k, k = lo.toNat + offset lo x := ⟨_, rfl⟩
    obtain rfl : x = seqOf k := by rw [hx, seqOf_offset]
    rw [contains_ofIntervals hq' (by omega) (by omega), contains_ofIntervals hq (by omega) (by omega), h,
      mem_range_iff hnf hfs hsn (by omega) (by omega)]

/-- The range behind the last one. -/
theorem add_exact_behind :
    ((∀ x, (add 10 12 [(3, 5)]).contains x = true ↔ contains [(3, 5)] x = true ∨ x - 10 ≤ (12 : SeqNum) - 10) ∧
      WellFormed (add 10 12 [(3, 5)])) ↔ Fits 10 12 [(3, 5)] :=
  @add_exact_iff 0 10 12 [(3, 5)] (by decide) (by decide) (by decide)

/-- Nacks out of order: the earlier range is put behind the later one. -/
theorem add_out_of_order : Ordered 0 [(10, 12)] ∧ offset 0 3 ≤ offset 0 5 ∧ offset 0 5 < 2 ^ 15 ∧
    add 3 5 [(10, 12)] = [(10, 12), (3, 5)] ∧ ¬ WellFormed (add 3 5 [(10, 12)]) := by
  have hadd : add 3 5 [(10, 12)] = ofIntervals [(10, 12), (3, 5)] := by decide
  have hin : Inside 0 [(10, 12), (3, 5)] := by simp [Inside]
  refine ⟨by decide, by decide, by decide, by decide, fun hw => ?_⟩
  rw [hadd] at hw
  have hasc := (hw.ascending_of hin).2
  simp at hasc

/-! ### `size` -/

/-- By how much the last numbers are ahead of the first ones. -/
def spread : List (Nat × Nat) → Nat
  | [] => 0
  | r :: q => r.2 - r.1 + spread q

theorem total_eq (q : List (Nat × Nat)) : Intervals.total q = q.length + spread q := by
  induction q with
  | nil => rfl
  | cons r q ih =>
    rw [Intervals.total, spread, List.length_cons, ih]
    omega

/-- Every number but one of a range is counted negatively. -/
theorem size_ofIntervals {n : Nat} {q : List (Nat × Nat)} (hq : Inside n q) :
    size (ofIntervals q) = BitVec.ofInt 32 (q.length - spread q) := by
  have hfold : ∀ (q : List (Nat × Nat)) (m : Int), Inside n q →
      (ofIntervals q).foldl (fun s r => s + BitVec.ofInt 32 (SeqNum.distance r.2 r.1 + 1)) (BitVec.ofInt 32 m) =
        BitVec.ofInt 32 (m + (q.length - spread q)) := by
    intro q
    induction q with
    | nil => simp [ofIntervals, spread]
    | cons r rest ih =>
      intro m hin
      obtain ⟨hr, hrest⟩ := Inside.cons_iff.mp hin
      have hdist : SeqNum.distance (seqOf r.2) (seqOf r.1) = (r.1 : Int) - r.2 :=
        SeqNum.distance_seqOf ⟨by omega, by omega⟩
      simp only [ofIntervals, List.map_cons, List.foldl_cons] at ih ⊢
      rw [hdist, ← BitVec.ofInt_add, ih _ hrest, spread, List.length_cons]
      congr 1
      push_cast [Nat.cast_sub hr.2.1]
      omega
  have h := hfold q 0 hq
  rw [Int.zero_add] at h
  exact h

private theorem ncard_contains {n : Nat} {q : List (Nat × Nat)} (ha : Intervals.Ascending q) (hq : Inside n q) :
    {x | (ofIntervals q).contains x = true}.ncard = Intervals.total q := by
  have himage : {x | (ofIntervals q).contains x = true} = seqOf '' {k | Intervals.Covers q k} := by
    ext x
    constructor
    · intro hx
      have hk := offset_lt (seqOf n) x
      rw [Set.mem_ofPred_eq, ← seqOf_add_offset n x, contains_ofIntervals hq (by omega) (by omega)] at hx
      exact ⟨_, hx, seqOf_add_offset n x⟩
    · rintro ⟨k, hk, rfl⟩
      have hin := covers_inside hq hk
      exact (contains_ofIntervals hq hin.1 hin.2).mpr hk
  have hinj : Set.InjOn seqOf {k | Intervals.Covers q k} := fun j hj k hk heq =>
    (seqOf_eq_iff (covers_inside hq hj) (covers_inside hq hk)).mp heq
  rw [himage, hinj.ncard_image, Intervals.ncard_covers ha]

/-- `size` is the number of numbers in the list only if every range has one. -/
theorem size_eq_ncard_iff {lo : SeqNum} {l : MissList} (hl : Ordered lo l) :
    (size l).toNat = {x | l.contains x = true}.ncard ↔ ∀ r ∈ l, r.1 = r.2 := by
  obtain ⟨q, rfl, ha, hq⟩ := hl.exists_intervals
  have hle : Intervals.total q ≤ lo.toNat + 2 ^ 15 - lo.toNat :=
    Intervals.total_le ha fun r hr => ⟨(hq r hr).1, (hq r hr).2.2⟩
  have htotal := total_eq q
  have hspread : spread q = 0 ↔ ∀ r ∈ q, r.1 = r.2 := by
    clear hle htotal ha hl
    induction q with
    | nil => simp [spread]
    | cons r rest ih =>
      obtain ⟨hr, hrest⟩ := Inside.cons_iff.mp hq
      rw [spread, List.forall_mem_cons, ← ih hrest]
      omega
  have hrange : (∀ r ∈ ofIntervals q, r.1 = r.2) ↔ ∀ r ∈ q, r.1 = r.2 := by
    rw [ofIntervals, List.forall_mem_map]
    refine forall₂_congr fun r hr => ?_
    have := hq r hr
    exact SeqNum.seqOf_inj ⟨by omega, by omega⟩
  rw [ncard_contains ha hq, size_ofIntervals hq, hrange, ← hspread, BitVec.toNat_ofInt]
  omega

theorem ncard_contains_ne_zero {lo : SeqNum} {l : MissList} (hl : Ordered lo l) (hne : l ≠ []) :
    {x | l.contains x = true}.ncard ≠ 0 := by
  obtain ⟨q, rfl, ha, hq⟩ := hl.exists_intervals
  rw [ncard_contains ha hq]
  cases q with
  | nil => exact absurd rfl hne
  | cons r rest =>
    rw [Intervals.total]
    omega

/-! ### `remove` -/

private theorem inside_remove {n x : Nat} {q : List (Nat × Nat)} (ha : Intervals.Ascending q) (hq : Inside n q) :
    Inside n (Intervals.remove x q) := by
  intro r hr
  obtain ⟨t, ht, h1, h2⟩ := Intervals.exists_of_mem_remove hr
  have hin := hq t ht
  have hle := (Intervals.ascending_remove ha x).1 r hr
  omega

/-- `remove` takes out its number and nothing else, also one that is not near the ranges. -/
theorem remove_exact {lo : SeqNum} {l : MissList} (hl : Ordered lo l) (x : SeqNum) :
    (∀ y, (l.remove x).contains y = true ↔ l.contains y = true ∧ y ≠ x) ∧ Ordered lo (l.remove x) := by
  obtain ⟨q, rfl, ha, hq⟩ := hl.exists_intervals
  obtain ⟨k, hk⟩ : ∃ k, k = lo.toNat + offset lo x := ⟨_, rfl⟩
  obtain rfl : x = seqOf k := by rw [hk, seqOf_offset]
  have hlt := offset_lt lo (seqOf k)
  by_cases hnear : k < lo.toNat + 2 ^ 15
  · have hrem : (ofIntervals q).remove (seqOf k) = ofIntervals (Intervals.remove k q) := by
      apply remove_ofIntervals
      intro r hr
      have := hq r hr
      omega
    have hin : Inside lo.toNat (Intervals.remove k q) := inside_remove ha hq
    rw [hrem]
    refine ⟨fun y => ?_, ?_⟩
    · obtain ⟨j, hj⟩ : ∃ j, j = lo.toNat + offset lo y := ⟨_, rfl⟩
      obtain rfl : y = seqOf j := by rw [hj, seqOf_offset]
      have hjlt := offset_lt lo (seqOf j)
      have heq : seqOf j = seqOf k ↔ j = k := seqOf_eq_iff (n := lo.toNat) (by omega) (by omega)
      rw [contains_ofIntervals hin (by omega) (by omega), contains_ofIntervals hq (by omega) (by omega),
        Intervals.covers_remove ha, ne_eq, ne_eq, heq]
    · have h := Ordered.of_intervals (Intervals.ascending_remove ha k) hin
      rwa [SeqNum.seqOf_toNat] at h
  · -- half the number space away from the ranges both comparisons cannot hold
    have hrem : (ofIntervals q).remove (seqOf k) = ofIntervals q := by
      apply remove_eq_self
      rintro t ht ⟨h1, h2⟩
      obtain ⟨r, hr, rfl⟩ := List.mem_map.mp ht
      have hin := hq r hr
      have hfirst : (seqOf k - seqOf r.1).toNat = k - r.1 := SeqNum.toNat_sub_seqOf (by omega) (by omega)
      have hsecond : (seqOf k - seqOf r.2).toNat = k - r.2 := SeqNum.toNat_sub_seqOf (by omega) (by omega)
      rw [SeqNum.le_iff] at h1 h2
      simp only at h1 h2
      bv_omega
    rw [hrem]
    refine ⟨fun y => ⟨fun hy => ⟨hy, ?_⟩, And.left⟩, hl⟩
    rintro rfl
    rw [contains_ofIntervals hq (by omega) (by omega)] at hy
    obtain ⟨r, hr, h1, h2⟩ := hy
    have := hq r hr
    omega

/-! ### `pop_front` -/

/-- What calls of `pop_front` return, up to the first `false`, and the list they leave. -/
def pops : Nat → MissList → List SeqNum × MissList
  | 0, l => ([], l)
  | n + 1, l =>
    match popFront l with
    | none => ([], l)
    | some (sq, rest) => (sq :: (pops n rest).1, (pops n rest).2)

/-- The numbers of a range, around the circle from its first to its last. -/
def numbers (r : SeqNum × SeqNum) : List SeqNum :=
  (List.range ((r.2 - r.1).toNat + 1)).map fun i => r.1 + BitVec.ofNat 16 i

private theorem numbers_single (x : SeqNum) : numbers (x, x) = [x] := by
  simp [numbers]

theorem numbers_cons {first second : SeqNum} (h : first ≠ second) :
    numbers (first, second) = first :: numbers (first + 1, second) := by
  have hlen : (second - first).toNat = (second - (first + 1)).toNat + 1 := by bv_omega
  rw [numbers, numbers]
  simp only
  rw [hlen, List.range_succ_eq_map, List.map_cons, List.map_map]
  refine congrArg₂ _ (by simp) (List.map_congr_left fun i _ => ?_)
  simp only [Function.comp, Nat.succ_eq_add_one]
  rw [BitVec.ofNat_add, BitVec.add_comm (BitVec.ofNat 16 i), ← BitVec.add_assoc]
  rfl

/-- A call takes the first of the numbers that are left. -/
theorem flatMap_popFront {l rest : MissList} {sq : SeqNum} (h : popFront l = some (sq, rest)) :
    l.flatMap numbers = sq :: rest.flatMap numbers := by
  cases l with
  | nil => cases h
  | cons r tail =>
    obtain ⟨first, second⟩ := r
    simp only [popFront] at h
    split_ifs at h with heq
    · cases h
      subst heq
      rw [List.flatMap_cons, numbers_single]
      rfl
    · cases h
      rw [List.flatMap_cons, numbers_cons heq, List.flatMap_cons]
      rfl

private theorem popFront_eq_none {l : MissList} : popFront l = none ↔ l = [] := by
  cases l with
  | nil => simp [popFront]
  | cons r rest =>
    simp only [popFront, reduceCtorEq, iff_false]
    split_ifs <;> simp

/-- Whatever the ranges are, the calls return the numbers of one after the other. -/
theorem pops_flatMap (l : MissList) : pops (l.flatMap numbers).length l = (l.flatMap numbers, []) := by
  induction hn : (l.flatMap numbers).length generalizing l with
  | zero =>
    cases l with
    | nil => rfl
    | cons r rest => simp [numbers] at hn
  | succ n ih =>
    cases hpop : popFront l with
    | none => simp [popFront_eq_none.mp hpop] at hn
    | some p =>
      obtain ⟨sq, rest⟩ := p
      rw [flatMap_popFront hpop] at hn ⊢
      have hrest := ih rest (by simpa using hn)
      simp only [pops, hpop, hrest]

private theorem mem_flatMap_numbers {l : MissList} {x : SeqNum} : x ∈ l.flatMap numbers ↔ Listed l x := by
  rw [List.mem_flatMap, listed_iff_offset]
  refine exists_congr fun r => and_congr_right fun _ => ?_
  simp only [numbers, List.mem_map, List.mem_range, Nat.lt_succ_iff, eq_comm]

/-- The numbers of a range in order are ahead of each other. -/
theorem numbers_ascending {lo : SeqNum} {r : SeqNum × SeqNum} (hr : offset lo r.1 ≤ offset lo r.2) :
    (numbers r).Pairwise (fun x y => offset lo x < offset lo y) ∧
      ∀ x ∈ numbers r, offset lo r.1 ≤ offset lo x ∧ offset lo x ≤ offset lo r.2 := by
  have hlen : (r.2 - r.1).toNat = offset lo r.2 - offset lo r.1 := by
    simp only [offset] at hr ⊢
    bv_omega
  have hoff : ∀ i < (r.2 - r.1).toNat + 1, offset lo (r.1 + BitVec.ofNat 16 i) = offset lo r.1 + i := by
    intro i hi
    simp only [offset] at hr hlen ⊢
    bv_omega
  constructor
  · rw [numbers, List.pairwise_map]
    refine List.pairwise_lt_range.imp_of_mem fun {i j} hi hj hij => ?_
    rw [hoff i (List.mem_range.mp hi), hoff j (List.mem_range.mp hj)]
    omega
  · intro x hx
    obtain ⟨i, hi, rfl⟩ := List.mem_map.mp hx
    have hi' := List.mem_range.mp hi
    rw [hoff i hi']
    omega

theorem flatMap_numbers_ascending {lo : SeqNum} {l : MissList} (hl : Ordered lo l) :
    (l.flatMap numbers).Pairwise fun x y => offset lo x < offset lo y := by
  rw [List.pairwise_flatMap]
  refine ⟨fun r hr => (numbers_ascending (hl.range r hr).1).1, ?_⟩
  refine hl.ascending.imp_of_mem fun {r s} hr hs hlt x hx y hy => ?_
  have hx' := (numbers_ascending (hl.range r hr).1).2 x hx
  have hy' := (numbers_ascending (hl.range s hs).1).2 y hy
  omega

theorem contains_iff_mem_numbers {lo x : SeqNum} {l : MissList} (hl : Ordered lo l) :
    l.contains x = true ↔ x ∈ l.flatMap numbers := by
  rw [mem_flatMap_numbers, contains_iff_listed]
  intro r hr
  have := hl.range r hr
  simp only [offset] at this
  bv_omega

end Tornet.MissList
