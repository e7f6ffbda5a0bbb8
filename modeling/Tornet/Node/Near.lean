import Tornet.Library.Nearest
import Tornet.Library.Xor
import Tornet.Node.Coherence

/-! `node::find_nodes_near`: the walk over the buckets against the nodes that are nearest to a target. -/
namespace Tornet.Node.Near
open Library Nearest

/-- What is asked of a connection in a bucket. -/
structure Contact where
  remoteId : Sha1
  endpoint : Endpoint
  behindNat : Bool
  deriving DecidableEq, Repr

/-- The host that is returned for a connection: behind a NAT with one empty endpoint. -/
def Contact.host (c : Contact) : Host :=
  { id := c.remoteId, ep := c.endpoint, natHosts := if c.behindNat then [{}] else [] }

/-- The test of the limit, on the id of the node. -/
def ignored (limit : Option Sha1) (c : Contact) : Bool :=
  match limit with
  | some l => l ≤ c.remoteId
  | none => false

/-- The inner loop over one bucket. -/
def scan (n : Nat) (limit : Option Sha1) : List Contact → List Host → List Host
  | [], near => near
  | c :: rest, near =>
    if near.length < n then
      if ignored limit c then scan n limit rest near else scan n limit rest (near ++ [c.host])
    else near

/-- The outer loop, from the bucket below `bid` down to the first. -/
def walk (bucket : Nat → List Contact) (n : Nat) (limit : Option Sha1) : Nat → List Host → List Host
  | 0, near => near
  | bid + 1, near => if near.length < n then walk bucket n limit bid (scan n limit (bucket bid) near) else near

/-- The routing table: every connection is in the bucket of its remote id, and no id is there twice. -/
structure Table where
  kbuckets : Kbucket
  contacts : ConnId → Contact
  placed : ∀ b, ∀ c ∈ kbuckets.buckets b, kbuckets.bucketFor (contacts c).remoteId = some b
  distinct : ((List.finRange 161).flatMap fun b => (kbuckets.buckets b).map fun c => (contacts c).remoteId).Nodup

namespace Table

def bucket (r : Table) (bid : Nat) : List Contact :=
  if h : bid < 161 then (r.kbuckets.buckets ⟨bid, h⟩).map r.contacts else []

def bucketId (r : Table) (target : Sha1) : Nat := calcBucket (target ^^^ r.kbuckets.nodeId)

/-- `node::find_nodes_near`; `none` is an access outside the vector of buckets. -/
def findNodesNear (r : Table) (target : Sha1) (n : UInt32) (limit : Option Sha1) : Option (List Host) :=
  if 0 < n.toNat ∧ 161 ≤ r.bucketId target then none
  else some (walk r.bucket n.toNat limit (r.bucketId target + 1) [])

def all (r : Table) : List Contact := (List.range 161).flatMap r.bucket

end Table

def distance (target : Sha1) (c : Contact) : Nat := (c.remoteId ^^^ target).toNat

/-- The distance to the target is below the limit, if there is one. -/
def within (target : Sha1) (limit : Option Sha1) (c : Contact) : Bool :=
  match limit with
  | some l => c.remoteId ^^^ target < l
  | none => true

/-- What the header promises: the `n` connected nodes nearest to the target, of those within the limit, by
their distance. -/
def Table.closest (r : Table) (target : Sha1) (n : Nat) (limit : Option Sha1) : List Host :=
  (nearest (distance target) n (r.all.filter (within target limit))).map Contact.host

/-! ### What the loops return -/

theorem scan_eq (n : Nat) (limit : Option Sha1) (l : List Contact) (near : List Host) :
    scan n limit l near =
      near ++ ((l.filter fun c => !ignored limit c).take (n - near.length)).map Contact.host := by
  induction l generalizing near with
  | nil => simp [scan]
  | cons c rest ih =>
    rw [scan]
    split_ifs with hroom hign
    · rw [ih, List.filter_cons_of_neg (by simp [hign])]
    · rw [ih, List.filter_cons_of_pos (by simp [hign]), List.length_append, List.length_singleton,
        show n - near.length = (n - (near.length + 1)) + 1 by omega, List.take_succ_cons, List.map_cons,
        List.append_assoc, List.singleton_append]
    · rw [show n - near.length = 0 by omega, List.take_zero, List.map_nil, List.append_nil]

/-- The walk takes the first nodes that the limit lets through, bucket by bucket. -/
theorem walk_eq (bucket : Nat → List Contact) (n : Nat) (limit : Option Sha1) (bid : Nat) (near : List Host) :
    walk bucket n limit bid near = near ++
      ((((List.range bid).reverse.flatMap bucket).filter fun c => !ignored limit c).take
        (n - near.length)).map Contact.host := by
  induction bid generalizing near with
  | zero => simp [walk]
  | succ bid ih =>
    rw [walk, List.range_succ, List.reverse_append, List.reverse_singleton, List.singleton_append,
      List.flatMap_cons, List.filter_append, List.take_append, List.map_append]
    split_ifs with hroom
    · -- the room that is left by this bucket
      have hleft : n - (scan n limit (bucket bid) near).length =
          n - near.length - ((bucket bid).filter fun c => !ignored limit c).length := by
        rw [scan_eq, List.length_append, List.length_map, List.length_take]
        omega
      rw [ih, hleft, scan_eq, List.append_assoc]
    · rw [show n - near.length = 0 by omega]
      simp

/-! ### The order of the buckets seen from the target -/

/-- The place of a bucket when nodes are ordered by their distance to a target in bucket `b₀`: first its own
bucket, then all buckets behind it, nearer to this node, and then those before it one by one. -/
def level (b₀ b : Nat) : Nat := if b = b₀ then 0 else if b₀ < b then 1 else 1 + (b₀ - b)

namespace Table

variable {r : Table} {target : Sha1} {x y : Contact} {b : Nat}

/-- The nodes within the limit by their distance, and those the walk takes. -/
def group (target : Sha1) (limit : Option Sha1) (l : List Contact) : List Contact × List Contact :=
  (l.filter fun c => !ignored limit c, byKey (distance target) (l.filter (within target limit)))

/-- The buckets behind that of the target, which the walk never visits. -/
def beyond (r : Table) (target : Sha1) : List Contact :=
  (List.range' (r.bucketId target + 1) (160 - r.bucketId target)).flatMap r.bucket

/-- The table from the target on: its own bucket, what is beyond it, and the buckets of the walk. -/
def groups (r : Table) (target : Sha1) (limit : Option Sha1) : List (List Contact × List Contact) :=
  group target limit (r.bucket (r.bucketId target)) ::
    ([], byKey (distance target) ((r.beyond target).filter (within target limit))) ::
      (List.range (r.bucketId target)).reverse.map fun b => group target limit (r.bucket b)

variable {limit : Option Sha1}

/-- How many nodes within the limit are in the buckets behind one. -/
def behind (r : Table) (target : Sha1) (limit : Option Sha1) (b : Nat) : Nat :=
  ((List.range' (b + 1) (160 - b)).flatMap r.bucket).countP (within target limit)

/-- What the walk takes of a bucket, with room for `n` nodes, are the nodes that are nearest to the target within the
limit: by rising distance, none of them beyond the limit, and none left out that belongs there. -/
def BucketInOrder (target : Sha1) (limit : Option Sha1) (n : Nat) (l : List Contact) : Prop :=
  Firsts (distance target) { x | x ∈ l.filter (within target limit) } n ((l.filter fun c => !ignored limit c).take n)

/-- The bucket of the target is in order, and so is each bucket below for the room that the nodes of the buckets behind
it leave. The buckets beyond that of the target are never visited: none there is within the limit, or there is no room
for it. -/
structure InOrder (r : Table) (target : Sha1) (n : Nat) (limit : Option Sha1) : Prop where
  own : BucketInOrder target limit n (r.bucket (r.bucketId target))
  beyond : n ≤ (r.bucket (r.bucketId target)).countP (within target limit) ∨
    ∀ x ∈ r.beyond target, within target limit x = false
  below : ∀ b < r.bucketId target, BucketInOrder target limit (n - r.behind target limit b) (r.bucket b)

end Table

/-! ### The table of a coherent index -/

section
variable {s : Index}

/-- A connection in a bucket is the one that the map has for its id. -/
theorem distToCon_of_listed (h : Coherent s) {b : Fin 161} {c : ConnId} (hc : c ∈ s.kbuckets.buckets b) :
    ∃ l, s.conns[c]? = some l ∧ s.kbuckets.bucketFor l.remoteId = some b ∧
      s.distToCon (l.remoteId ^^^ s.id) = some c := by
  obtain ⟨d, l, hd, hl, hb⟩ := h.listed b c hc
  obtain ⟨l', hl', -, rfl⟩ := h.entry d c hd
  obtain rfl : l = l' := Option.some.inj (hl.symm.trans hl')
  exact ⟨l, hl, hb, hd⟩

private theorem bucket_nodup (h : Coherent s) (b : Fin 161) : (s.kbuckets.buckets b).Nodup := by
  rw [List.nodup_iff_count_eq_one]
  intro c hc
  obtain ⟨l, hl, hb, hd⟩ := distToCon_of_listed h hc
  obtain ⟨l', b', hl', hb', hone⟩ := h.placed _ c hd
  obtain rfl : l = l' := Option.some.inj (hl.symm.trans hl')
  obtain rfl : b = b' := Option.some.inj (hb.symm.trans hb')
  exact hone

/-- The remote id of a connection; no connection without one is in a bucket. -/
def remoteIdOf (s : Index) (c : ConnId) : Sha1 := (s.conns[c]?.getD {}).remoteId

theorem remoteIdOf_listed (h : Coherent s) {b : Fin 161} {c : ConnId} (hc : c ∈ s.kbuckets.buckets b) :
    s.kbuckets.bucketFor (remoteIdOf s c) = some b ∧ s.distToCon (remoteIdOf s c ^^^ s.id) = some c := by
  obtain ⟨l, hl, hb, hd⟩ := distToCon_of_listed h hc
  rw [remoteIdOf, hl]
  exact ⟨hb, hd⟩

private theorem remoteIdOf_nodup (h : Coherent s) :
    ((List.finRange 161).flatMap fun b => (s.kbuckets.buckets b).map (remoteIdOf s)).Nodup := by
  rw [List.nodup_flatMap]
  constructor
  · intro b _
    apply (bucket_nodup h b).map_on
    intro c hc c' hc' heq
    have hd := (remoteIdOf_listed h hc).2
    rw [heq, (remoteIdOf_listed h hc').2] at hd
    exact (Option.some.inj hd).symm
  · apply (List.nodup_finRange 161).imp
    intro b b' hne id hid hid'
    obtain ⟨c, hc, rfl⟩ := List.mem_map.mp hid
    obtain ⟨c', hc', heq⟩ := List.mem_map.mp hid'
    have hb := (remoteIdOf_listed h hc').1
    rw [heq, (remoteIdOf_listed h hc).1] at hb
    exact hne (Option.some.inj hb)

/-- While the index is coherent, its buckets are a routing table. -/
def Table.ofIndex (s : Index) (h : Coherent s) (endpoint : ConnId → Endpoint) (behindNat : ConnId → Bool) : Table where
  kbuckets := s.kbuckets
  contacts c := ⟨remoteIdOf s c, endpoint c, behindNat c⟩
  placed _ _ hc := (remoteIdOf_listed h hc).1
  distinct := remoteIdOf_nodup h

end

end Tornet.Node.Near
