import Mathlib.Algebra.Group.Nat.Defs
import Mathlib.Data.List.Basic
import Mathlib.Data.Nat.Basic

/-! Numbers in groups of seven bits, the lowest first; the high bit says that more follow. -/
namespace Tornet.Library.Varint

/-- The groups of `n`, of which there are at most `bound + 1`. -/
def groups : Nat → Nat → List UInt8
  | 0, n => [UInt8.ofNat n]
  | bound + 1, n =>
    if n < 128 then [UInt8.ofNat n] else UInt8.ofNat (n % 128 + 128) :: groups bound (n / 128)

def encode (n : Nat) : List UInt8 := groups n n

/-- The number and what stands behind it. -/
def decode : List UInt8 → Option (Nat × List UInt8)
  | [] => none
  | b :: rest =>
    if b.toNat < 128 then some (b.toNat, rest)
    else (decode rest).map fun r => (b.toNat - 128 + 128 * r.1, r.2)

theorem groups_eq {n bound bound' : Nat} (h : n ≤ bound) (h' : n ≤ bound') : groups bound n = groups bound' n := by
  induction bound generalizing n bound' with
  | zero =>
    obtain rfl : n = 0 := by omega
    cases bound' with
    | zero => rfl
    | succ bound' => rfl
  | succ bound ih =>
    cases bound' with
    | zero =>
      obtain rfl : n = 0 := by omega
      rfl
    | succ bound' =>
      rw [groups, groups]
      split_ifs
      · rfl
      · rw [ih (show n / 128 ≤ bound by omega) (show n / 128 ≤ bound' by omega)]

theorem encode_of_lt {n : Nat} (h : n < 128) : encode n = [UInt8.ofNat n] := by
  cases n with
  | zero => rfl
  | succ n => rw [encode, groups, if_pos h]

theorem encode_of_ge {n : Nat} (h : 128 ≤ n) : encode n = UInt8.ofNat (n % 128 + 128) :: encode (n / 128) := by
  cases n with
  | zero => omega
  | succ n =>
    rw [encode, groups, if_neg (by omega), encode, groups_eq (show (n + 1) / 128 ≤ n by omega) le_rfl]

theorem encode_ne_nil (n : Nat) : encode n ≠ [] := by
  rcases Nat.lt_or_ge n 128 with h | h
  · rw [encode_of_lt h]
    exact List.cons_ne_nil _ _
  · rw [encode_of_ge h]
    exact List.cons_ne_nil _ _

theorem length_groups_le (bound n k : Nat) (h : n < 128 ^ (k + 1)) : (groups bound n).length ≤ k + 1 := by
  induction bound generalizing n k with
  | zero => exact Nat.le_add_left 1 k
  | succ bound ih =>
    rw [groups]
    split_ifs with hlt
    · exact Nat.le_add_left 1 k
    · cases k with
      | zero => exact absurd h hlt
      | succ k =>
        rw [Nat.pow_succ] at h
        exact Nat.succ_le_succ (ih (n / 128) k (Nat.div_lt_of_lt_mul (by omega)))

/-- A number of 35 bits has five groups at most. -/
theorem length_encode_le {n : Nat} (h : n < 2 ^ 35) : (encode n).length ≤ 5 := length_groups_le n n 4 h

theorem toNat_ofNat {n : Nat} (h : n < 256) : (UInt8.ofNat n).toNat = n := UInt8.toNat_ofNat_of_lt' h

theorem decode_groups (bound n : Nat) (hn : n ≤ bound) (rest : List UInt8) :
    decode (groups bound n ++ rest) = some (n, rest) := by
  induction bound generalizing n with
  | zero =>
    obtain rfl : n = 0 := by omega
    simp [groups, decode]
  | succ bound ih =>
    rw [groups]
    split_ifs with hlt
    · simp [decode, toNat_ofNat (show n < 256 by omega), hlt]
    · have hrec := ih (n / 128) (by omega)
      simp only [List.cons_append, decode, toNat_ofNat (show n % 128 + 128 < 256 by omega), hrec, Option.map_some]
      rw [if_neg (by omega)]
      congr 2
      omega

theorem decode_encode (n : Nat) (rest : List UInt8) : decode (encode n ++ rest) = some (n, rest) :=
  decode_groups n n le_rfl rest

end Tornet.Library.Varint
