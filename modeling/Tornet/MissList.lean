import Tornet.Library.Intervals
import Tornet.Sequence

/-! `tn::miss_list`: an ascending list of closed ranges of missing sequence numbers. -/
namespace Tornet
open Library

/-- `std::list<std::pair<seq_num,seq_num>>`. -/
abbrev MissList := List (SeqNum × SeqNum)

namespace MissList

/-- `miss_list::add`. The scan stops at the first range that does not end before
`start - 1`; anything but an exact extension of that range goes behind it. -/
def add (start stop : SeqNum) : MissList → MissList
  | [] => [(start, stop)]
  | (first, second) :: rest =>
    if SeqNum.lt (second + 1) start then (first, second) :: add start stop rest
    else if second + 1 = start then (first, stop) :: rest
    else match rest with
      | [] => [(first, second), (start, stop)]
      | (first', second') :: rest' =>
        -- the source moves the next range's start to `end`, not to `start`
        if stop + 1 = first' then (first, second) :: (stop, second') :: rest'
        else (first, second) :: (start, stop) :: (first', second') :: rest'

/-- `miss_list::size`: `itr->second - itr->first` is `distance`, from second to first. -/
def size (l : MissList) : BitVec 32 :=
  l.foldl (fun s r => s + BitVec.ofInt 32 (SeqNum.distance r.2 r.1 + 1)) 0

/-- `miss_list::pop_front`: the popped number and the remaining list. -/
def popFront : MissList → Option (SeqNum × MissList)
  | [] => none
  | (first, second) :: rest =>
    if first = second then some (first, rest) else some (first, (first + 1, second) :: rest)

/-- `miss_list::remove`. -/
def remove (seq : SeqNum) : MissList → MissList
  | [] => []
  | (first, second) :: rest =>
    if SeqNum.le first seq && SeqNum.le seq second then
      if first = seq ∧ second = seq then rest
      else if first = seq then (first + 1, second) :: rest
      else if second = seq then (first, second - 1) :: rest
      else if SeqNum.lt first seq && SeqNum.lt seq second then
        (first, seq - 1) :: (seq + 1, second) :: rest
      else (first, second) :: rest
    else if SeqNum.gt first seq then (first, second) :: rest
    else (first, second) :: remove seq rest

/-- `miss_list::contains`. -/
def contains (l : MissList) (seq : SeqNum) : Bool :=
  l.any fun r => SeqNum.le r.1 seq && SeqNum.ge r.2 seq

/-- The ranges `operator<<` writes: the count is the circular minimum of 128 and the
list's length, truncated to the byte that carries it. -/
def wire (l : MissList) : MissList :=
  let n : SeqNum := BitVec.ofNat 16 l.length
  let len : SeqNum := if SeqNum.lt n 128 then n else 128
  l.take (len.toNat % 256)

/-- The list a set of unbounded counts is stored as. -/
def ofIntervals (l : List (Nat × Nat)) : MissList := l.map fun r => (seqOf r.1, seqOf r.2)

/-- Within half the number space around `x`, removing its residue removes `x`. -/
theorem remove_ofIntervals {l : List (Nat × Nat)} {x : Nat}
    (hr : ∀ r ∈ l, r.1 ≤ r.2 ∧ x < r.1 + 2 ^ 15 ∧ r.2 < x + 2 ^ 15) :
    remove (seqOf x) (ofIntervals l) = ofIntervals (Intervals.remove x l) := by
  induction l with
  | nil => rfl
  | cons q rest ih =>
    obtain ⟨f, s⟩ := q
    obtain ⟨hfs, hlo, hhi⟩ := hr (f, s) List.mem_cons_self
    have ih := ih fun r h => hr r (List.mem_cons_of_mem _ h)
    simp only at hfs hlo hhi
    have nfx : SeqNum.Near f x := ⟨hlo, by omega⟩
    have nxs : SeqNum.Near x s := ⟨hhi, by omega⟩
    simp only [ofIntervals, List.map_cons] at ih ⊢
    simp only [remove, Intervals.remove, SeqNum.le_seqOf nfx, SeqNum.le_seqOf nxs,
      SeqNum.lt_seqOf nfx, SeqNum.lt_seqOf nxs, SeqNum.gt_seqOf nfx, SeqNum.seqOf_inj nfx,
      Bool.and_eq_true, decide_eq_true_eq, eq_comm (a := seqOf s), SeqNum.seqOf_inj nxs]
    split_ifs <;> first
      | omega
      | rfl
      | skip
    · rw [List.map_cons, SeqNum.seqOf_succ]
    · obtain ⟨t, rfl⟩ : ∃ t, s = t + 1 := ⟨s - 1, by omega⟩
      rw [List.map_cons, Nat.add_sub_cancel, SeqNum.seqOf_pred]
    · obtain ⟨t, rfl⟩ : ∃ t, x = t + 1 := ⟨x - 1, by omega⟩
      rw [List.map_cons, List.map_cons, Nat.add_sub_cancel, SeqNum.seqOf_pred,
        SeqNum.seqOf_succ (t + 1)]
    · simp [ih]

/-- A range behind everything in the list is appended, whatever its length. -/
theorem add_ofIntervals {l : List (Nat × Nat)} {f s : Nat}
    (hr : ∀ r ∈ l, r.2 + 1 < f ∧ f < r.2 + 2 ^ 15) :
    add (seqOf f) (seqOf s) (ofIntervals l) = ofIntervals (l ++ [(f, s)]) := by
  induction l with
  | nil => rfl
  | cons q rest ih =>
    obtain ⟨g, t⟩ := q
    obtain ⟨hlo, hhi⟩ := hr (g, t) List.mem_cons_self
    have ih := ih fun r h => hr r (List.mem_cons_of_mem _ h)
    have near : SeqNum.Near (t + 1) f := ⟨by omega, by omega⟩
    simp only [ofIntervals, List.map_cons, List.cons_append] at ih ⊢
    rw [add.eq_def]
    simp only [← SeqNum.seqOf_succ, SeqNum.lt_seqOf near, decide_eq_true_eq]
    rw [if_pos hlo, ih]

/-- The list stores exactly the counts with property `s`. -/
def Stores (m : MissList) (s : Nat → Prop) : Prop :=
  ∃ l, m = ofIntervals l ∧ Intervals.Ascending l ∧ ∀ x, Intervals.Covers l x ↔ s x

theorem Stores.congr {m : MissList} {s t : Nat → Prop} (h : Stores m s) (hst : ∀ x, s x ↔ t x) :
    Stores m t := by
  obtain ⟨l, hm, ha, hc⟩ := h
  exact ⟨l, hm, ha, fun x => (hc x).trans (hst x)⟩

theorem stores_nil {s : Nat → Prop} (hs : ∀ x, ¬ s x) : Stores [] s :=
  ⟨[], rfl, ⟨by simp, List.Pairwise.nil⟩, fun x => by simp [hs x]⟩

theorem Stores.eq_nil {m : MissList} {s : Nat → Prop} (h : Stores m s) (hs : ∀ x, ¬ s x) : m = [] := by
  obtain ⟨l, rfl, ha, hc⟩ := h
  rw [Intervals.eq_nil_of_covers_none ha fun x hx => hs x ((hc x).mp hx)]
  rfl

/-- The ends of an interval are stored counts. -/
private theorem ends_covered {l : List (Nat × Nat)} (ha : Intervals.Ascending l) {r : Nat × Nat}
    (hr : r ∈ l) : Intervals.Covers l r.1 ∧ Intervals.Covers l r.2 :=
  ⟨⟨r, hr, Nat.le_refl _, ha.1 r hr⟩, ⟨r, hr, ha.1 r hr, Nat.le_refl _⟩⟩

theorem Stores.remove {m : MissList} {s : Nat → Prop} (h : Stores m s) {n : Nat}
    (hs : ∀ x, s x → x < n + 2 ^ 15 ∧ n < x + 2 ^ 15) :
    Stores (m.remove (seqOf n)) fun x => s x ∧ x ≠ n := by
  obtain ⟨l, rfl, ha, hc⟩ := h
  refine ⟨Intervals.remove n l, remove_ofIntervals fun r hr => ?_,
    Intervals.ascending_remove ha n, fun x => ?_⟩
  · obtain ⟨h1, h2⟩ := ends_covered ha hr
    exact ⟨ha.1 r hr, (hs _ ((hc _).mp h1)).2, (hs _ ((hc _).mp h2)).1⟩
  · rw [Intervals.covers_remove ha, hc]

theorem Stores.add {m : MissList} {s : Nat → Prop} (h : Stores m s) {f t : Nat} (hft : f ≤ t)
    (hs : ∀ x, s x → x + 1 < f ∧ f < x + 2 ^ 15) :
    Stores (m.add (seqOf f) (seqOf t)) fun x => s x ∨ (f ≤ x ∧ x ≤ t) := by
  obtain ⟨l, rfl, ha, hc⟩ := h
  have hl : ∀ r ∈ l, r.2 + 1 < f ∧ f < r.2 + 2 ^ 15 := fun r hr =>
    hs _ ((hc _).mp (ends_covered ha hr).2)
  refine ⟨l ++ [(f, t)], add_ofIntervals hl, Intervals.ascending_append ha hft fun r hr => ?_,
    fun x => ?_⟩
  · have := (hl r hr).1
    omega
  · simp [hc]

/-- A number of one of the ranges, counted from its first number on around the circle:
what the loop over `pop_front` yields. -/
def Listed (l : MissList) (seq : SeqNum) : Prop := ∃ r ∈ l, seq - r.1 ≤ r.2 - r.1

instance (l : MissList) (seq : SeqNum) : Decidable (Listed l seq) :=
  decidable_of_iff (l.any fun r => seq - r.1 ≤ r.2 - r.1) (by simp [Listed])

theorem listed_cons {r : SeqNum × SeqNum} {l : MissList} {seq : SeqNum} :
    Listed (r :: l) seq ↔ seq - r.1 ≤ r.2 - r.1 ∨ Listed l seq := by
  simp [Listed]

theorem not_listed_nil {seq : SeqNum} : ¬ Listed [] seq := by simp [Listed]

theorem listed_iff_offset {l : MissList} {seq : SeqNum} :
    Listed l seq ↔ ∃ r ∈ l, ∃ k ≤ (r.2 - r.1).toNat, seq = r.1 + BitVec.ofNat 16 k := by
  refine exists_congr fun r => and_congr_right fun _ => ⟨fun h => ⟨(seq - r.1).toNat, h, ?_⟩, ?_⟩
  · bv_omega
  · rintro ⟨k, hk, rfl⟩
    have := (r.2 - r.1).isLt
    rw [BitVec.le_def, BitVec.add_comm, BitVec.add_sub_cancel, BitVec.toNat_ofNat, Nat.mod_eq_of_lt (by omega)]
    exact hk

theorem listed_none_iff {l : MissList} : (∀ seq, ¬ Listed l seq) ↔ l = [] := by
  refine ⟨fun h => ?_, fun h seq => h ▸ not_listed_nil⟩
  cases l with
  | nil => rfl
  | cons r rest => exact absurd (listed_cons.mpr (.inl (by bv_omega))) (h r.1)

instance decidableListed {P : SeqNum → Prop} [DecidablePred P] (l : MissList) : Decidable (∀ seq, Listed l seq → P seq) :=
  decidable_of_iff (l.all fun r => (List.range ((r.2 - r.1).toNat + 1)).all fun k => P (r.1 + BitVec.ofNat 16 k)) <| by
    simp only [List.all_eq_true, decide_eq_true_eq, List.mem_range, Nat.lt_succ_iff, listed_iff_offset]
    constructor
    · rintro h _ ⟨r, hr, k, hk, rfl⟩
      exact h r hr k hk
    · exact fun h r hr k hk => h _ ⟨r, hr, k, hk, rfl⟩

/-- `remove` leaves a list alone that has no range around the number. -/
theorem remove_eq_self {l : MissList} {seq : SeqNum}
    (h : ∀ r ∈ l, ¬ (SeqNum.le r.1 seq = true ∧ SeqNum.le seq r.2 = true)) : remove seq l = l := by
  induction l with
  | nil => rfl
  | cons r rest ih =>
    obtain ⟨first, second⟩ := r
    have ih := ih fun r hr => h r (List.mem_cons_of_mem _ hr)
    have hout := h _ List.mem_cons_self
    rw [remove, if_neg (by simpa only [Bool.and_eq_true] using hout), ih, ite_self]

/-- A list of counts less than a full turn apart lists exactly their residues. -/
theorem Stores.listed_iff {m : MissList} {s : Nat → Prop} (h : Stores m s) (lo : Nat)
    (hs : ∀ x, s x → lo ≤ x ∧ x < lo + 2 ^ 16) {seq : SeqNum} :
    Listed m seq ↔ ∃ x, s x ∧ seqOf x = seq := by
  obtain ⟨l, rfl, ha, hc⟩ := h
  have hlen : ∀ r ∈ l, (seqOf r.2 - seqOf r.1).toNat = r.2 - r.1 := by
    intro r hr
    obtain ⟨h1, h2⟩ := ends_covered ha hr
    have := hs _ ((hc _).mp h1)
    have := hs _ ((hc _).mp h2)
    exact SeqNum.toNat_sub_seqOf (ha.1 r hr) (by omega)
  rw [listed_iff_offset]
  constructor
  · rintro ⟨q, hq, k, hk, rfl⟩
    obtain ⟨r, hr, rfl⟩ := List.mem_map.mp hq
    rw [hlen r hr] at hk
    have := ha.1 r hr
    refine ⟨r.1 + k, (hc _).mp ⟨r, hr, by omega, by omega⟩, ?_⟩
    rw [SeqNum.seqOf_add]
    rfl
  · rintro ⟨x, hx, rfl⟩
    obtain ⟨r, hr, h1, h2⟩ := (hc x).mpr hx
    refine ⟨_, List.mem_map.mpr ⟨r, hr, rfl⟩, x - r.1, ?_, ?_⟩
    · simp only [hlen r hr]
      omega
    · have hx : x = r.1 + (x - r.1) := by omega
      exact (congrArg seqOf hx).trans (SeqNum.seqOf_add _ _)

/-- The ends of the ranges of a list of counts. -/
theorem Stores.ends {m : MissList} {s : Nat → Prop} (h : Stores m s) {q : SeqNum × SeqNum} (hq : q ∈ m) :
    ∃ f t, q = (seqOf f, seqOf t) ∧ f ≤ t ∧ s f ∧ s t := by
  obtain ⟨l, rfl, ha, hc⟩ := h
  obtain ⟨r, hr, rfl⟩ := List.mem_map.mp hq
  obtain ⟨h1, h2⟩ := ends_covered ha hr
  exact ⟨r.1, r.2, rfl, ha.1 r hr, (hc _).mp h1, (hc _).mp h2⟩

theorem Stores.length_le {m : MissList} {s : Nat → Prop} (h : Stores m s) {lo hi : Nat}
    (hs : ∀ x, s x → lo ≤ x ∧ x < hi) : m.length ≤ hi - lo := by
  obtain ⟨l, rfl, ha, hc⟩ := h
  rw [ofIntervals, List.length_map]
  exact Intervals.length_le_of_covers ha fun x hx => hs x ((hc x).mp hx)

/-- The wire carries the first 128 ranges. -/
theorem wire_eq_take {l : MissList} (h : l.length ≤ 2 ^ 15) : l.wire = l.take 128 := by
  have hlt : SeqNum.lt (BitVec.ofNat 16 l.length) 128 = true ↔ l.length < 128 := by
    rw [SeqNum.lt_iff]
    bv_omega
  unfold wire
  simp only
  split_ifs with hl
  · have hlen := hlt.mp hl
    have hmod : (BitVec.ofNat 16 l.length).toNat % 256 = l.length := by
      rw [BitVec.toNat_ofNat]
      omega
    rw [hmod, List.take_length, List.take_of_length_le (by omega)]
  · rfl

theorem listed_wire {l : MissList} {seq : SeqNum} (h : Listed l.wire seq) : Listed l seq := by
  obtain ⟨r, hr, hin⟩ := h
  exact ⟨r, List.mem_of_mem_take hr, hin⟩

theorem listed_popFront {l rest : MissList} {sq : SeqNum} (h : popFront l = some (sq, rest)) (seq : SeqNum) :
    Listed l seq ↔ seq = sq ∨ Listed rest seq := by
  match l, h with
  | (first, second) :: tail, h =>
    simp only [popFront] at h
    split_ifs at h with hfs
    · cases h
      subst hfs
      rw [listed_cons]
      apply or_congr_left
      bv_omega
    · cases h
      rw [listed_cons, listed_cons, ← or_assoc]
      apply or_congr_left
      simp only
      bv_omega

/-- Whatever `add` merges, it lists nothing that was not in the list or in the range. -/
theorem listed_add {l : MissList} {start stop seq : SeqNum} (h : Listed (l.add start stop) seq) :
    Listed l seq ∨ Listed [(start, stop)] seq := by
  induction l with
  | nil => exact .inr h
  | cons r rest ih =>
    obtain ⟨first, second⟩ := r
    rw [add.eq_def] at h
    simp only at h
    split_ifs at h with hlt heq
    · rw [listed_cons] at h ⊢
      rcases h with h | h
      · exact .inl (.inl h)
      · exact (ih h).imp_left .inr
    · -- the range grows to `stop`: what is new in it is the added range
      rw [listed_cons] at h ⊢
      rcases h with h | h
      · have hsplit : seq - first ≤ second - first ∨ seq - start ≤ stop - start := by
          simp only at h
          bv_omega
        rcases hsplit with hs | hs
        · exact .inl (.inl hs)
        · exact .inr (listed_cons.mpr (.inl hs))
      · exact .inl (.inr h)
    · cases rest with
      | nil =>
        rw [listed_cons] at h
        rcases h with h | h
        · exact .inl (listed_cons.mpr (.inl h))
        · exact .inr h
      | cons q tail =>
        obtain ⟨first', second'⟩ := q
        simp only at h
        split_ifs at h with hstop
        · simp only [listed_cons] at h ⊢
          rcases h with h | h | h
          · exact .inl (.inl h)
          · have hsplit : seq - first' ≤ second' - first' ∨ seq - start ≤ stop - start := by
              bv_omega
            exact hsplit.imp (fun hs => .inr (.inl hs)) .inl
          · exact .inl (.inr (.inr h))
        · simp only [listed_cons] at h ⊢
          tauto

end MissList
end Tornet
