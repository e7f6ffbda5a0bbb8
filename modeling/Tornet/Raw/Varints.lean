import Mathlib.Tactic.Ring
import Tornet.Library.Varint
import Tornet.Raw.Datastream

/-! `signed_int` and `unsigned_int`: numbers in groups of seven bits. -/
namespace Tornet.Raw
open Library

variable {σ : Type} [Sink σ]

/-- The loop that puts a number; the groups are the same for the 32 bits of `signed_int` and the 64 of `unsigned_int`. -/
def putGroups {w : Nat} (val : BitVec w) (s : σ) : Option σ := do
  let b := val.setWidth 8 &&& 0x7f#8
  let s ← Sink.put (UInt8.ofBitVec (if 0#w < val >>> 7 then b ||| 0x80#8 else b)) s
  if 0#w < val >>> 7 then putGroups (val >>> 7) s else some s
termination_by val.toNat
decreasing_by
  rename_i h
  rw [BitVec.lt_def, BitVec.toNat_ushiftRight, Nat.shiftRight_eq_div_pow] at h
  rw [BitVec.toNat_ushiftRight, Nat.shiftRight_eq_div_pow]
  omega

/-- The loop that reads one, after groups with `shift` bits. Behind 32 bits, where C++ leaves the shift open, they are
dropped. -/
def getGroups (v : BitVec 32) (shift : Nat) : Bytes → Option (BitVec 32 × Bytes)
  | [] => none
  | b :: rest =>
    let v := v ||| (b.toBitVec &&& 0x7f#8).setWidth 32 <<< shift
    if b.toBitVec &&& 0x80#8 ≠ 0 then getGroups v (shift + 7) rest else some (v, rest)

/-- What `pack` puts for a `signed_int`: `>>` of an `int32_t` fills with the sign. -/
def zigzag (value : BitVec 32) : BitVec 32 := (value <<< 1) ^^^ value.sshiftRight 31

/-- What `unpack` makes of it. `v` is unsigned, and `v>>31` is its highest bit. -/
def unzigzag (v : BitVec 32) : BitVec 32 :=
  let value := ((v >>> 1) ^^^ (v >>> 31)) + (v &&& 1#32)
  if v &&& 1#32 ≠ 0 then -value else -(-value)

/-! ### Numbers and back -/

theorem low_bits : ∀ x : BitVec 8, x &&& 0x7f#8 = BitVec.ofNat 8 (x.toNat % 128) := by decide

private theorem low_bits_more : ∀ x : BitVec 8, x &&& 0x7f#8 ||| 0x80#8 = BitVec.ofNat 8 (x.toNat % 128 + 128) := by decide

private theorem high_bit : ∀ x : BitVec 8, x &&& 0x80#8 ≠ 0 ↔ 128 ≤ x.toNat := by decide

private theorem shifted_pos {w : Nat} (val : BitVec w) : 0#w < val >>> 7 ↔ 128 ≤ val.toNat := by
  rw [BitVec.lt_def, BitVec.toNat_ushiftRight, Nat.shiftRight_eq_div_pow, BitVec.toNat_zero]
  omega

theorem putGroups_eq {w : Nat} (val : BitVec w) (s : σ) : putGroups val s = putAll (Varint.encode val.toNat) s := by
  induction hn : val.toNat using Nat.strongRecOn generalizing val s with
  | ind n ih =>
    have hlow : (val.setWidth 8).toNat % 128 = n % 128 := by
      rw [BitVec.toNat_setWidth, hn]
      omega
    rw [putGroups]
    by_cases hmore : 0#w < val >>> 7
    · have hge := (shifted_pos val).1 hmore
      have hrest : (val >>> 7).toNat = n / 128 := by rw [BitVec.toNat_ushiftRight, Nat.shiftRight_eq_div_pow, hn]
      rw [Varint.encode_of_ge (by omega), putAll_cons]
      simp only [if_pos hmore, low_bits_more, hlow, Option.bind_eq_bind]
      exact congrArg (Option.bind _) (funext fun s => ih _ (by omega) (val >>> 7) s hrest)
    · have hlt := (shifted_pos val).not.1 hmore
      rw [Varint.encode_of_lt (by omega), putAll_cons]
      simp only [if_neg hmore, low_bits, hlow, Option.bind_eq_bind]
      rw [Nat.mod_eq_of_lt (by omega)]
      rfl

/-- A group in the place behind those that were read. -/
theorem or_group {x shift : Nat} {v : BitVec 32} (hx : x < 128) (hv : v.toNat < 2 ^ shift)
    (h : v.toNat + x * 2 ^ shift < 2 ^ 32) :
    v ||| (BitVec.ofNat 8 x).setWidth 32 <<< shift = BitVec.ofNat 32 (v.toNat + x * 2 ^ shift) := by
  apply BitVec.eq_of_toNat_eq
  have hplace : ((BitVec.ofNat 8 x).setWidth 32 <<< shift).toNat = 2 ^ shift * x := by
    rw [BitVec.toNat_shiftLeft, BitVec.toNat_setWidth, BitVec.toNat_ofNat, Nat.mod_eq_of_lt (show x < 2 ^ 8 by omega),
      Nat.mod_eq_of_lt (show x < 2 ^ 32 by omega), Nat.shiftLeft_eq, Nat.mod_eq_of_lt (by omega), Nat.mul_comm]
  rw [BitVec.toNat_or, hplace, BitVec.toNat_ofNat, Nat.mod_eq_of_lt h, Nat.or_comm, ← Nat.two_pow_add_eq_or_of_lt hv,
    Nat.mul_comm, Nat.add_comm]

/-- Groups are read back behind those that were read before. -/
theorem getGroups_encode (n shift : Nat) (v : BitVec 32) (rest : Bytes) (hv : v.toNat < 2 ^ shift)
    (hn : v.toNat + n * 2 ^ shift < 2 ^ 32) :
    getGroups v shift (Varint.encode n ++ rest) = some (BitVec.ofNat 32 (v.toNat + n * 2 ^ shift), rest) := by
  induction n using Nat.strongRecOn generalizing shift v with
  | ind n ih =>
    by_cases hlt : n < 128
    · have hbyte : (UInt8.ofNat n).toBitVec = BitVec.ofNat 8 n := rfl
      have hn8 : (BitVec.ofNat 8 n).toNat = n := by rw [BitVec.toNat_ofNat, Nat.mod_eq_of_lt (by omega)]
      have hlast : ¬ (BitVec.ofNat 8 n &&& 0x80#8 ≠ 0) := by
        rw [high_bit, hn8]
        omega
      rw [Varint.encode_of_lt hlt, List.singleton_append, getGroups]
      simp only [hbyte]
      rw [if_neg hlast, low_bits, hn8, Nat.mod_eq_of_lt hlt, or_group hlt hv hn]
    · have hbyte : (UInt8.ofNat (n % 128 + 128)).toBitVec = BitVec.ofNat 8 (n % 128 + 128) := rfl
      have hn8 : (BitVec.ofNat 8 (n % 128 + 128)).toNat = n % 128 + 128 := by
        rw [BitVec.toNat_ofNat, Nat.mod_eq_of_lt (by omega)]
      have hmore : BitVec.ofNat 8 (n % 128 + 128) &&& 0x80#8 ≠ 0 := by
        rw [high_bit, hn8]
        omega
      have hgroup : n * 2 ^ shift = n % 128 * 2 ^ shift + n / 128 * 2 ^ (shift + 7) := by
        conv_lhs => rw [← Nat.mod_add_div n 128]
        ring
      have hlow : v.toNat + n % 128 * 2 ^ shift < 2 ^ 32 := by omega
      have hbound : v.toNat + n % 128 * 2 ^ shift < 2 ^ (shift + 7) := by
        have hmul : n % 128 * 2 ^ shift ≤ 127 * 2 ^ shift := Nat.mul_le_mul_right _ (by omega)
        rw [Nat.pow_add]
        omega
      have hv' : (BitVec.ofNat 32 (v.toNat + n % 128 * 2 ^ shift)).toNat = v.toNat + n % 128 * 2 ^ shift := by
        rw [BitVec.toNat_ofNat, Nat.mod_eq_of_lt hlow]
      rw [Varint.encode_of_ge (by omega), List.cons_append, getGroups]
      simp only [hbyte]
      rw [if_pos hmore, low_bits, hn8, show (n % 128 + 128) % 128 = n % 128 by omega, or_group (by omega) hv hlow,
        ih (n / 128) (by omega) (shift + 7) _ (by rw [hv']; exact hbound) (by rw [hv']; omega), hv', hgroup, Nat.add_assoc]

/-- A number of 32 bits is read back. -/
theorem getGroups_putGroups (n : BitVec 32) (rest : Bytes) :
    getGroups 0 0 (Varint.encode n.toNat ++ rest) = some (n, rest) := by
  rw [getGroups_encode n.toNat 0 0 rest (by decide) (by simpa using n.isLt)]
  simp

/-! ### The sign -/

def Narrow (value : BitVec 32) : Prop := -2 ^ 30 ≤ value.toInt ∧ value.toInt < 2 ^ 30

instance (value : BitVec 32) : Decidable (Narrow value) := inferInstanceAs (Decidable (_ ∧ _))

/-- The number with its lowest bit flipped, where it is not narrow. -/
def flipped (value : BitVec 32) : BitVec 32 := if Narrow value then value else value ^^^ 1#32

theorem unzigzag_eq {v m : BitVec 32} {e : Nat} (he : e < 2) (h : v.toNat = 2 * m.toNat + e) :
    unzigzag v = if e = 1 then -((m ^^^ m >>> 30) + 1#32) else m ^^^ m >>> 30 := by
  have hhalf : v >>> 1 = m := by
    apply BitVec.eq_of_toNat_eq
    rw [BitVec.toNat_ushiftRight, Nat.shiftRight_eq_div_pow]
    omega
  have htop : v >>> 31 = m >>> 30 := by
    apply BitVec.eq_of_toNat_eq
    rw [BitVec.toNat_ushiftRight, BitVec.toNat_ushiftRight, Nat.shiftRight_eq_div_pow, Nat.shiftRight_eq_div_pow]
    omega
  have hlow : v &&& 1#32 = BitVec.ofNat 32 e := by
    apply BitVec.eq_of_toNat_eq
    rw [BitVec.toNat_and, BitVec.toNat_ofNat, BitVec.toNat_ofNat, Nat.mod_eq_of_lt (show 1 < 2 ^ 32 by decide),
      Nat.and_one_is_mod]
    omega
  rw [unzigzag]
  simp only [hhalf, htop, hlow]
  obtain rfl | rfl : e = 0 ∨ e = 1 := by omega
  · simp
  · simp

theorem shifted_half {m : BitVec 32} (hm : m.toNat < 2 ^ 31) : m >>> 30 = if m.toNat < 2 ^ 30 then 0#32 else 1#32 := by
  apply BitVec.eq_of_toNat_eq
  rw [BitVec.toNat_ushiftRight, Nat.shiftRight_eq_div_pow]
  split_ifs
  · rw [BitVec.toNat_zero]
    omega
  · rw [BitVec.toNat_ofNat]
    omega

private theorem sign_of_nonneg {m : BitVec 32} (hm : m.toNat < 2 ^ 31) : m.sshiftRight 31 = 0#32 := by
  rw [BitVec.sshiftRight_eq_of_msb_false (BitVec.msb_eq_false_iff_two_mul_lt.2 (by omega))]
  apply BitVec.eq_of_toNat_eq
  rw [BitVec.toNat_ushiftRight, Nat.shiftRight_eq_div_pow, BitVec.toNat_zero]
  omega

private theorem sign_of_neg {value : BitVec 32} (hneg : 2 ^ 31 ≤ value.toNat) : value.sshiftRight 31 = ~~~0#32 := by
  have hm : (~~~value).toNat < 2 ^ 31 := by
    rw [BitVec.toNat_not]
    omega
  rw [BitVec.sshiftRight_eq_of_msb_true (BitVec.msb_eq_true_iff_two_mul_ge.2 (by omega)),
    ← BitVec.sshiftRight_eq_of_msb_false (BitVec.msb_eq_false_iff_two_mul_lt.2 (by omega)), sign_of_nonneg hm]

/-- What comes back is the number where it is narrow. -/
theorem unzigzag_zigzag (value : BitVec 32) : unzigzag (zigzag value) = flipped value := by
  have hint := BitVec.toInt_eq_toNat_cond value
  rw [flipped]
  by_cases hneg : value.toNat < 2 ^ 31
  · have hz : (zigzag value).toNat = 2 * value.toNat + 0 := by
      rw [zigzag, sign_of_nonneg hneg, BitVec.xor_zero, BitVec.toNat_shiftLeft, Nat.shiftLeft_eq]
      omega
    have hnarrow : Narrow value ↔ value.toNat < 2 ^ 30 := by
      rw [Narrow, hint, if_pos (by omega)]
      omega
    rw [unzigzag_eq (by decide) hz, if_neg (by decide), shifted_half hneg, if_congr hnarrow rfl rfl]
    split_ifs
    · exact BitVec.xor_zero
    · rfl
  · -- the complement of a negative number is what its groups hold
    have hm : (~~~value).toNat < 2 ^ 31 := by
      rw [BitVec.toNat_not]
      omega
    have hz : (zigzag value).toNat = 2 * (~~~value).toNat + 1 := by
      have hxor : zigzag value = ~~~(value <<< 1) := by
        rw [zigzag, sign_of_neg (Nat.not_lt.1 hneg), ← BitVec.not_xor_right, BitVec.xor_zero]
      rw [hxor, BitVec.toNat_not, BitVec.toNat_not, BitVec.toNat_shiftLeft, Nat.shiftLeft_eq]
      omega
    have hback (d : BitVec 32) : -((~~~value ^^^ d) + 1#32) = value ^^^ d := by
      rw [BitVec.neg_add, ← BitVec.not_eq_neg_add, ← BitVec.not_xor_left, BitVec.not_not]
    have hnarrow : Narrow value ↔ (~~~value).toNat < 2 ^ 30 := by
      rw [Narrow, hint, if_neg (by omega), BitVec.toNat_not]
      omega
    rw [unzigzag_eq (by decide) hz, if_pos rfl, hback, shifted_half hm, if_congr hnarrow rfl rfl]
    split_ifs
    · exact BitVec.xor_zero
    · rfl

/-- Whether a number is narrow does not depend on its lowest bit. -/
theorem narrow_iff (value : BitVec 32) :
    Narrow value ↔ (value >>> 1).toNat < 2 ^ 29 ∨ 3 * 2 ^ 29 ≤ (value >>> 1).toNat := by
  have hint := BitVec.toInt_eq_toNat_cond value
  rw [BitVec.toNat_ushiftRight, Nat.shiftRight_eq_div_pow, Narrow, hint]
  have hlt := value.isLt
  split_ifs <;> omega

private theorem narrow_xor_one (value : BitVec 32) : Narrow (value ^^^ 1#32) ↔ Narrow value := by
  rw [narrow_iff, narrow_iff, BitVec.ushiftRight_xor_distrib, show 1#32 >>> 1 = 0#32 from rfl, BitVec.xor_zero]

theorem flipped_flipped (value : BitVec 32) : flipped (flipped value) = value := by
  by_cases h : Narrow value
  · rw [flipped, flipped, if_pos h, if_pos h]
  · rw [flipped, flipped, if_neg h, if_neg ((narrow_xor_one value).not.2 h), BitVec.xor_assoc, BitVec.xor_self,
      BitVec.xor_zero]

theorem flipped_eq_self (value : BitVec 32) : flipped value = value ↔ Narrow value := by
  rw [flipped]
  split_ifs with h
  · exact iff_of_true rfl h
  · apply iff_of_false _ h
    intro hself
    have hone : value ^^^ (value ^^^ 1#32) = 0#32 := by rw [hself, BitVec.xor_self]
    rw [← BitVec.xor_assoc, BitVec.xor_self, BitVec.zero_xor] at hone
    exact absurd hone (by decide)

end Tornet.Raw
