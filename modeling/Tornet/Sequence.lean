import Tornet.Library.Circular

/-! The 16-bit sequence numbers of `sequence::number<uint16_t>`. Comparisons go
through the signed 16-bit distance, so they are circular. -/
namespace Tornet
open Library

/-- `sequence::number<uint16_t>`; its increments and additions wrap. -/
abbrev SeqNum := BitVec 16

namespace SeqNum

/-- `S distance( U sequence )`, also what `operator-( U )` returns. -/
def distance (a b : SeqNum) : Int := Circular.distance a b

def lt (a b : SeqNum) : Bool := decide (0 < distance a b)
def le (a b : SeqNum) : Bool := decide (0 ≤ distance a b)
def ge (a b : SeqNum) : Bool := decide (distance a b ≤ 0)
def gt (a b : SeqNum) : Bool := decide (distance a b < 0)

end SeqNum

/-- The sequence number of the `n`-th packet of a stream, before any wrap-around. -/
def seqOf (n : Nat) : SeqNum := Circular.wrap 16 n

namespace SeqNum

theorem seqOf_succ (n : Nat) : seqOf (n + 1) = seqOf n + 1 := Circular.wrap_succ 16 n

theorem seqOf_add (m n : Nat) : seqOf (m + n) = seqOf m + seqOf n := Circular.wrap_add 16 m n

theorem seqOf_pred (n : Nat) : seqOf (n + 1) - 1 = seqOf n := Circular.wrap_sub_one 16 n

theorem seqOf_toNat (a : SeqNum) : seqOf a.toNat = a := by simp [seqOf, Circular.wrap]

def Near (m n : Nat) : Prop := n < m + 2 ^ 15 ∧ m ≤ n + 2 ^ 15

theorem distance_seqOf {m n : Nat} (h : Near m n) : distance (seqOf m) (seqOf n) = (n : Int) - m :=
  Circular.distance_wrap (by decide) (by have := h.2; norm_num at *; omega)
    (by have := h.1; norm_num at *; omega)

theorem lt_seqOf {m n : Nat} (h : Near m n) : lt (seqOf m) (seqOf n) = decide (m < n) := by
  simp only [lt, distance_seqOf h, decide_eq_decide]
  omega

theorem le_seqOf {m n : Nat} (h : Near m n) : le (seqOf m) (seqOf n) = decide (m ≤ n) := by
  simp only [le, distance_seqOf h, decide_eq_decide]
  omega

theorem gt_seqOf {m n : Nat} (h : Near m n) : gt (seqOf m) (seqOf n) = decide (n < m) := by
  simp only [gt, distance_seqOf h, decide_eq_decide]
  omega

theorem seqOf_inj {m n : Nat} (h : Near m n) : seqOf m = seqOf n ↔ m = n := by
  obtain ⟨hu, hl⟩ := h
  rcases Nat.le_total m n with hmn | hmn
  · exact Circular.wrap_inj hmn (by omega)
  · rw [eq_comm, seqOf, seqOf, Circular.wrap_inj hmn (by omega), eq_comm]

private theorem toInt_neg_iff (d : BitVec 16) : d.toInt < 0 ↔ 2 ^ 15 ≤ d.toNat := by
  rw [BitVec.toInt_eq_toNat_cond]
  split_ifs <;> omega

/-- `a > b`: `a` is at most half the number space ahead of `b`. The tie counts as greater. -/
theorem gt_iff {a b : SeqNum} : gt a b = true ↔ 2 ^ 15 ≤ (b - a).toNat := by
  rw [gt, decide_eq_true_eq]
  exact toInt_neg_iff (b - a)

/-- `a < b`: `b` is ahead of `a` by less than half the number space. -/
theorem lt_iff {a b : SeqNum} : lt a b = true ↔ a ≠ b ∧ (b - a).toNat < 2 ^ 15 := by
  have hneg := toInt_neg_iff (b - a)
  have hzero : (b - a).toInt = 0 ↔ b = a := by
    rw [← BitVec.toInt_zero (w := 16), BitVec.toInt_inj]
    bv_omega
  rw [lt, decide_eq_true_eq, ne_comm, Ne, ← hzero]
  change 0 < (b - a).toInt ↔ _
  omega

theorem le_iff {a b : SeqNum} : le a b = true ↔ (b - a).toNat < 2 ^ 15 := by
  have hneg := toInt_neg_iff (b - a)
  rw [le, decide_eq_true_eq]
  change 0 ≤ (b - a).toInt ↔ _
  omega

/-- The way from one count to a later one, less than a full turn ahead. -/
theorem toNat_sub_seqOf {m n : Nat} (hmn : m ≤ n) (h : n < m + 2 ^ 16) :
    (seqOf n - seqOf m).toNat = n - m := by
  obtain ⟨k, rfl⟩ : ∃ k, n = m + k := ⟨n - m, by omega⟩
  rw [seqOf_add, BitVec.add_comm, BitVec.add_sub_cancel]
  simp only [seqOf, Circular.wrap, BitVec.toNat_ofNat]
  omega

end SeqNum
end Tornet
