import Tornet.Node.Near

/-! The bit length of a distance where it is used: as the index of a bucket, as a rank, and as the amount
of a shift in `chunk_search::filter`. -/
namespace Tornet.Node.BitLengths
open Near

/-- `fc::bigint::log2`: the number of significant bits. -/
def log2 (x : Sha1) : Int := x.toNat.size

/-- `161 - log2`, before it is cut to a byte. -/
def rank (hash : Sha1) : Int := 161 - log2 hash

/-- `level` in `chunk_search::filter`, for the node `id`. -/
def level (target id : Sha1) : Int := min (16 - (160 - log2 (target ^^^ id))) 1

/-- The buckets that are looked up for an id are there. -/
structure Indexed (nodeId id : Sha1) : Prop where
  bucket : calcBucket (id ^^^ nodeId) < 161
  add : ∀ (k : Kbucket) (c : ConnId), k.nodeId = nodeId → k.add c id ≠ none
  remove : ∀ (k : Kbucket) (c : ConnId), k.nodeId = nodeId → k.remove c id ≠ none
  find : ∀ (r : Table) (n : UInt32) (limit : Option Sha1), r.kbuckets.nodeId = nodeId → r.findNodesNear id n limit ≠ none

/-- The rank of a hash is at least 1, and a byte holds it. -/
structure Ranked (hash : Sha1) : Prop where
  pos : 1 ≤ rank hash
  stored : ((Connection.rankOf hash).toNat : Int) = rank hash

/-- `1 << (level-1)` shifts an `int` by an amount that the language allows. -/
def Shifted (target id : Sha1) : Prop := 0 ≤ level target id - 1 ∧ level target id - 1 ≤ 31

private theorem log2_le (x : Sha1) : log2 x ≤ 160 := by
  have h : x.toNat.size ≤ 160 := Nat.size_le.mpr x.isLt
  rw [log2]
  omega

theorem ranked (hash : Sha1) : Ranked hash := by
  have hle := log2_le hash
  have hnat : (161 - hash.toNat.size : Nat) = rank hash := by
    rw [rank]
    rw [log2] at hle ⊢
    omega
  refine ⟨by rw [rank]; omega, ?_⟩
  rw [Connection.rankOf, UInt8.toNat_ofNat', ← hnat, Nat.mod_eq_of_lt (by omega)]

/-- Only the own id has no bucket. -/
theorem indexed_iff (nodeId id : Sha1) : Indexed nodeId id ↔ id ≠ nodeId := by
  constructor
  · rintro h rfl
    have hb := h.bucket
    rw [BitVec.xor_self] at hb
    exact absurd hb (by decide)
  · intro hne
    have some_bucket (k : Kbucket) (hk : k.nodeId = nodeId) : ∃ b, k.bucketFor id = some b :=
      Kbucket.bucketFor_isSome (by rwa [hk])
    have hlt : calcBucket (id ^^^ nodeId) < 161 := Kbucket.calcBucket_lt fun h0 => hne (BitVec.xor_eq_zero_iff.mp h0)
    refine ⟨hlt, fun k c hk => ?_, fun k c hk => ?_, fun r n limit hr => ?_⟩
    · obtain ⟨b, hb⟩ := some_bucket k hk
      rw [Kbucket.add_eq hb]
      exact Option.some_ne_none _
    · obtain ⟨b, hb⟩ := some_bucket k hk
      simp only [Kbucket.remove, hb, Option.bind_eq_bind, Option.bind_some]
      split_ifs <;> exact Option.some_ne_none _
    · rw [Table.findNodesNear, Table.bucketId, hr, if_neg (by omega)]
      exact Option.some_ne_none _

/-- The distance has more than 144 bits if the first 16 bits of the ids are not the same. -/
theorem far_iff (a b : Sha1) : 145 ≤ log2 (a ^^^ b) ↔ a >>> 144 ≠ b >>> 144 := by
  have hxor : a >>> 144 = b >>> 144 ↔ (a ^^^ b) >>> 144 = 0 := by
    rw [BitVec.ushiftRight_xor_distrib]
    exact BitVec.xor_eq_zero_iff.symm
  have hzero : (a ^^^ b) >>> 144 = 0 ↔ (a ^^^ b).toNat < 2 ^ 144 := by
    rw [← BitVec.toNat_inj, BitVec.toNat_ushiftRight, Nat.shiftRight_eq_div_pow]
    change (a ^^^ b).toNat / 2 ^ 144 = 0 ↔ _
    rw [Nat.div_eq_zero_iff]
    omega
  have hsize : 145 ≤ log2 (a ^^^ b) ↔ 2 ^ 144 ≤ (a ^^^ b).toNat := by
    rw [← Nat.lt_size, log2]
    omega
  rw [hsize, Ne, hxor, hzero, not_lt]

/-- The minimum with 1 lets all levels below 1 pass. -/
theorem shifted_iff (target id : Sha1) : Shifted target id ↔ target >>> 144 ≠ id >>> 144 := by
  rw [← far_iff, Shifted, level]
  omega

/-- Neighbouring ids. -/
example : level 5 4 - 1 = -144 := by decide

/-- Bit lengths stay in range for a node, another id and a hash if and only if the ids differ in one of their first 16
bits; their index into the buckets does if they differ at all. -/
theorem in_range_iff (nodeId id hash : Sha1) :
    (Indexed nodeId id ∧ Ranked hash ∧ Shifted nodeId id ↔ nodeId >>> 144 ≠ id >>> 144) ∧
      (Indexed nodeId id ↔ id ≠ nodeId) ∧ Ranked hash := by
  refine ⟨?_, indexed_iff nodeId id, ranked hash⟩
  rw [indexed_iff, shifted_iff]
  constructor
  · exact fun h => h.2.2
  · intro h
    refine ⟨?_, ranked hash, h⟩
    rintro rfl
    exact h rfl

/-- A remote party that looks up the node's own id. -/
theorem own_id_out_of_range : ¬ ∀ nodeId id hash : Sha1, Indexed nodeId id ∧ Ranked hash ∧ Shifted nodeId id := by
  intro h
  exact absurd (h 5 5 0).1.bucket (by decide)

end Tornet.Node.BitLengths
