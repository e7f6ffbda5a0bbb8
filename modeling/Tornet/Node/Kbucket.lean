import Mathlib.Algebra.BigOperators.Group.Finset.Basic
import Mathlib.Algebra.BigOperators.Group.Finset.Piecewise
import Mathlib.Data.Fintype.Basic
import Mathlib.Data.Nat.Size
import Tornet.Peer

/-! `kbucket`: connections by the length of their distance to the own id. -/
namespace Tornet.Node

/-- A `connection*`. -/
abbrev ConnId := Nat

/-- `calc_bucket`, with `log2` the number of significant bits. The distance 0 gives 161. -/
def calcBucket (dist : Sha1) : Nat := 161 - dist.toNat.size

/-- `kbucket::impl`. The counter has no initializer, so a fresh one holds any value. -/
structure Kbucket where
  nodeId : Sha1
  count : BitVec 32
  buckets : Fin 161 → List ConnId

namespace Kbucket

def init (id : Sha1) (count : BitVec 32) : Kbucket := ⟨id, count, fun _ => []⟩

/-- `get_bucket_for_target`; `none` is an access outside the vector. -/
def bucketFor (k : Kbucket) (target : Sha1) : Option (Fin 161) :=
  if h : calcBucket (target ^^^ k.nodeId) < 161 then some ⟨_, h⟩ else none

/-- `kbucket::add`, with the remote id of the connection. -/
def add (k : Kbucket) (c : ConnId) (remoteId : Sha1) : Option Kbucket := do
  let b ← k.bucketFor remoteId
  some { k with
    buckets := Function.update k.buckets b (k.buckets b ++ [c])
    count := k.count + 1 }

/-- `kbucket::remove`: the first occurrence, if there is one. -/
def remove (k : Kbucket) (c : ConnId) (remoteId : Sha1) : Option Kbucket := do
  let b ← k.bucketFor remoteId
  if c ∈ k.buckets b then
    some { k with
      buckets := Function.update k.buckets b ((k.buckets b).erase c)
      count := k.count - 1 }
  else some k

def total (k : Kbucket) : Nat := ∑ b, (k.buckets b).length

theorem calcBucket_lt {dist : Sha1} (h : dist ≠ 0) : calcBucket dist < 161 := by
  have hpos : 0 < dist.toNat.size := by
    refine Nat.size_pos.mpr (Nat.pos_of_ne_zero fun h0 => h ?_)
    exact BitVec.eq_of_toNat_eq h0
  rw [calcBucket]
  omega

theorem bucketFor_isSome {k : Kbucket} {target : Sha1} (h : target ≠ k.nodeId) :
    ∃ b, k.bucketFor target = some b := by
  have hd : target ^^^ k.nodeId ≠ 0 := fun h0 => h (BitVec.xor_eq_zero_iff.mp h0)
  exact ⟨_, dif_pos (calcBucket_lt hd)⟩

/-- Replacing one bucket changes the total by the difference of the lengths. -/
theorem total_update (k : Kbucket) (b : Fin 161) (v : List ConnId) (n : BitVec 32) :
    total { k with buckets := Function.update k.buckets b v, count := n } + (k.buckets b).length =
      total k + v.length := by
  have split (f : Fin 161 → List ConnId) :
      ∑ i, (f i).length = (f b).length + ∑ i ∈ Finset.univ.erase b, (f i).length :=
    (Finset.add_sum_erase _ _ (Finset.mem_univ b)).symm
  have rest : ∑ i ∈ Finset.univ.erase b, (Function.update k.buckets b v i).length =
      ∑ i ∈ Finset.univ.erase b, (k.buckets i).length := by
    refine Finset.sum_congr rfl fun i hi => ?_
    rw [Function.update_of_ne (Finset.ne_of_mem_erase hi)]
  unfold total
  simp only [split, rest, Function.update_self]
  omega

theorem add_eq {k : Kbucket} {c : ConnId} {id : Sha1} {b : Fin 161} (hb : k.bucketFor id = some b) :
    k.add c id = some { k with
      buckets := Function.update k.buckets b (k.buckets b ++ [c]), count := k.count + 1 } := by
  simp only [add, hb, Option.bind_eq_bind, Option.bind_some]

theorem remove_eq {k : Kbucket} {c : ConnId} {id : Sha1} {b : Fin 161} (hb : k.bucketFor id = some b)
    (hc : c ∈ k.buckets b) :
    k.remove c id = some { k with
      buckets := Function.update k.buckets b ((k.buckets b).erase c), count := k.count - 1 } := by
  simp only [remove, hb, Option.bind_eq_bind, Option.bind_some, if_pos hc]

end Kbucket
end Tornet.Node
