import Mathlib.Data.BitVec
import Mathlib.Tactic.Linarith

/-! Circular (serial-number) comparison of fixed-width words: a word is the
residue of an unbounded count, and two residues compare like their counts as
long as the counts are less than half the number space apart. -/
namespace Tornet.Library.Circular

variable {w : Nat}

/-- Signed distance from `a` to `b`: the difference read as a signed word. -/
def distance (a b : BitVec w) : Int := (b - a).toInt

/-- The residue of an unbounded count. -/
def wrap (w n : Nat) : BitVec w := BitVec.ofNat w n

theorem wrap_add (w m n : Nat) : wrap w (m + n) = wrap w m + wrap w n := BitVec.ofNat_add m n

theorem wrap_succ (w n : Nat) : wrap w (n + 1) = wrap w n + 1 := BitVec.ofNat_add n 1

theorem wrap_sub_one (w n : Nat) : wrap w (n + 1) - 1 = wrap w n := by
  rw [wrap_succ, BitVec.add_sub_cancel]

/-- In range, the signed distance of two residues is the difference of the counts. -/
theorem distance_wrap {m n : Nat} (hw : 0 < w) (hl : -(2 ^ (w - 1) : Int) ≤ (n : Int) - m)
    (hu : (n : Int) - m < 2 ^ (w - 1)) : distance (wrap w m) (wrap w n) = (n : Int) - m := by
  obtain ⟨v, rfl⟩ : ∃ v, w = v + 1 := ⟨w - 1, by omega⟩
  simp only [Nat.add_sub_cancel] at hl hu
  rw [distance, BitVec.toInt_sub, wrap, wrap, BitVec.toInt_ofNat', BitVec.toInt_ofNat',
    Int.bmod_sub_bmod, Int.sub_bmod_bmod]
  apply Int.bmod_eq_of_le_mul_two <;> · push_cast [pow_succ]; omega

/-- Distinct residues of counts that are less than a full turn apart. -/
theorem wrap_inj {m n : Nat} (hmn : m ≤ n) (hd : n - m < 2 ^ w) : wrap w m = wrap w n ↔ m = n := by
  constructor
  · intro h
    have hz : wrap w (n - m) = 0 := by
      have hn : wrap w n = wrap w m + wrap w (n - m) := by rw [← wrap_add]; congr 1; omega
      rw [hn] at h
      exact (BitVec.add_right_inj (wrap w m)).mp (h.symm.trans (BitVec.add_zero _).symm)
    have ht := congrArg BitVec.toNat hz
    simp only [wrap, BitVec.toNat_ofNat, BitVec.ofNat_eq_ofNat, Nat.zero_mod] at ht
    rw [Nat.mod_eq_of_lt hd] at ht
    omega
  · rintro rfl
    rfl

end Tornet.Library.Circular
