import Mathlib.Data.List.Basic
import Mathlib.Data.BitVec

/-! `db::peer`: the records of known peers, keyed by distance and indexed by endpoint. -/
namespace Tornet

abbrev Bytes := List UInt8

/-- `fc::sha1`, read as a big-endian number; `^` is the xor distance. -/
abbrev Sha1 := BitVec 160

/-- `fc::ip::endpoint`. -/
structure Endpoint where
  ip : BitVec 32 := 0
  port : BitVec 16 := 0
  deriving DecidableEq, Repr

/-- `tn::host`: a node, and the endpoints that introduce it where it is behind a NAT. -/
structure Host where
  id : Sha1
  ep : Endpoint
  natHosts : List Endpoint := []
  deriving DecidableEq, Repr

/-- `db::peer::record`; the bandwidth, round-trip, firewall, payment address and priority
fields are left out. -/
structure PeerRecord where
  lastEp : Endpoint := {}
  nonce : UInt64 × UInt64 := (0, 0)
  firstContact : UInt64 := 0
  lastContact : UInt64 := 0
  sentCredit : UInt64 := 0
  recvCredit : UInt64 := 0
  totalBtcRecv : UInt64 := 0
  totalBtcSent : UInt64 := 0
  rank : UInt8 := 0
  publishedRank : UInt8 := 0
  publicKey : Bytes := List.replicate 256 0
  bfKey : Bytes := List.replicate 56 0
  connected : Bool := false
  deriving DecidableEq, Repr

/-- `peer::record::valid`: the public key is not all zero. -/
def PeerRecord.valid (r : PeerRecord) : Bool := r.publicKey ≠ List.replicate 256 0

def PeerRecord.blank (ep : Endpoint) : PeerRecord := { lastEp := ep }

/-- The two Berkeley databases: records in the order of their key, the distance to the
own id; the endpoint index returns the first of several in that order. -/
structure PeerDb where
  nodeId : Sha1
  entries : List (Sha1 × PeerRecord) := []
  deriving DecidableEq, Repr

namespace PeerDb

/-- `Db::put`. -/
def put (dist : Sha1) (r : PeerRecord) : List (Sha1 × PeerRecord) → List (Sha1 × PeerRecord)
  | [] => [(dist, r)]
  | e :: rest =>
    if e.1 = dist then (dist, r) :: rest
    else if dist < e.1 then (dist, r) :: e :: rest
    else e :: put dist r rest

theorem mem_put {dist : Sha1} {r : PeerRecord} {es : List (Sha1 × PeerRecord)} {e : Sha1 × PeerRecord}
    (h : e ∈ put dist r es) : e = (dist, r) ∨ e ∈ es := by
  induction es with
  | nil => exact .inl (List.mem_singleton.mp h)
  | cons x rest ih =>
    unfold put at h
    split_ifs at h
    · rcases List.mem_cons.mp h with rfl | h
      · exact .inl rfl
      · exact .inr (List.mem_cons_of_mem x h)
    · exact List.mem_cons.mp h
    · rcases List.mem_cons.mp h with rfl | h
      · exact .inr List.mem_cons_self
      · exact (ih h).imp_right (List.mem_cons_of_mem x)

/-- `peer::store` without its check of the id. -/
def store (id : Sha1) (r : PeerRecord) (db : PeerDb) : PeerDb :=
  { db with entries := put (id ^^^ db.nodeId) r db.entries }

/-- `peer::fetch`. Its key `Dbt` has a length limit but no size, so the empty key is looked
up, which no record has: the record passed in stays as it is. -/
def fetch (_id : Sha1) (r : PeerRecord) (_db : PeerDb) : Bool × PeerRecord := (false, r)

/-- `peer::fetch_by_endpoint`. -/
def fetchByEndpoint (ep : Endpoint) (db : PeerDb) : Option (Sha1 × PeerRecord) :=
  (db.entries.find? fun e => e.2.lastEp = ep).map fun e => (e.1 ^^^ db.nodeId, e.2)

/-- The record found is stored, for that endpoint. -/
theorem fetchByEndpoint_mem {ep : Endpoint} {db : PeerDb} {id : Sha1} {r : PeerRecord}
    (h : db.fetchByEndpoint ep = some (id, r)) : ∃ e ∈ db.entries, e.2.lastEp = ep ∧ e.1 ^^^ db.nodeId = id ∧ e.2 = r := by
  obtain ⟨e, he, heq⟩ := Option.map_eq_some_iff.mp h
  obtain ⟨rfl, rfl⟩ := Prod.mk.inj heq
  have hep := List.find?_some he
  exact ⟨e, List.mem_of_find?_eq_some he, of_decide_eq_true hep, rfl, rfl⟩

theorem fetchByEndpoint_eq_none {ep : Endpoint} {db : PeerDb} :
    db.fetchByEndpoint ep = none ↔ ∀ e ∈ db.entries, e.2.lastEp ≠ ep := by
  simp [fetchByEndpoint, List.find?_eq_none]

/-- A record is stored over the one before. -/
theorem store_store (id : Sha1) (r r' : PeerRecord) (db : PeerDb) : (db.store id r).store id r' = db.store id r' := by
  have hput : ∀ (dist : Sha1) (es : List (Sha1 × PeerRecord)), put dist r' (put dist r es) = put dist r' es := by
    intro dist es
    induction es with
    | nil => simp [put]
    | cons e es ih =>
      rw [put]
      split_ifs with heq hlt
      · simp [put, heq]
      · simp [put, heq, hlt]
      · rw [put, if_neg heq, if_neg hlt, ih, put, if_neg heq, if_neg hlt]
  exact congrArg (PeerDb.mk db.nodeId) (hput _ _)

theorem mem_put_self (dist : Sha1) (r : PeerRecord) (es : List (Sha1 × PeerRecord)) : (dist, r) ∈ put dist r es := by
  induction es with
  | nil => exact List.mem_cons_self
  | cons e es ih =>
    rw [put]
    split_ifs
    · exact List.mem_cons_self
    · exact List.mem_cons_self
    · exact List.mem_cons_of_mem e ih

/-- Of a record that is stored only the endpoint counts for the index. -/
theorem fetchByEndpoint_store {id : Sha1} {r r' : PeerRecord} {db : PeerDb} {ep : Endpoint} (hep : r'.lastEp = r.lastEp)
    (h : (db.store id r).fetchByEndpoint ep = none) : (db.store id r').fetchByEndpoint ep = none := by
  rw [← store_store id r r' db, fetchByEndpoint_eq_none]
  rw [fetchByEndpoint_eq_none] at h
  intro e he
  rcases mem_put he with rfl | he
  · exact hep ▸ h _ (mem_put_self _ r db.entries)
  · exact h e he

/-! ### What is stored for an id -/

def lookup (db : PeerDb) (id : Sha1) : Option PeerRecord :=
  (db.entries.find? fun e => e.1 = id ^^^ db.nodeId).map Prod.snd

def Sorted (db : PeerDb) : Prop := db.entries.Pairwise fun e e' => e.1 < e'.1

private theorem find?_put (dist dist' : Sha1) (r : PeerRecord) (es : List (Sha1 × PeerRecord)) :
    ((put dist r es).find? fun e => e.1 = dist') =
      if dist' = dist then some (dist, r) else es.find? fun e => e.1 = dist' := by
  induction es with
  | nil =>
    rw [put, List.find?_singleton]
    by_cases h : dist' = dist
    · simp [h]
    · simp [h, Ne.symm h]
  | cons e es ih =>
    rw [put]
    by_cases h : dist' = dist
    · subst h
      rw [if_pos rfl]
      split_ifs with heq hlt
      · simp
      · simp
      · rw [List.find?_cons_of_neg (by simpa using heq), ih, if_pos rfl]
    · rw [if_neg h] at ih ⊢
      split_ifs with heq hlt
      · simp [heq, Ne.symm h]
      · simp [Ne.symm h]
      · rw [List.find?_cons, List.find?_cons, ih]

theorem lookup_store (db : PeerDb) (id id' : Sha1) (r : PeerRecord) :
    (db.store id r).lookup id' = if id' = id then some r else db.lookup id' := by
  rw [lookup, store, find?_put]
  by_cases h : id' = id
  · simp [h]
  · have hne : ¬ id' ^^^ db.nodeId = id ^^^ db.nodeId := fun he => h ((BitVec.xor_left_inj _).mp he)
    rw [if_neg h, if_neg hne, lookup]

theorem Sorted.store {db : PeerDb} (h : db.Sorted) (id : Sha1) (r : PeerRecord) : (db.store id r).Sorted := by
  have hput : ∀ (dist : Sha1) (es : List (Sha1 × PeerRecord)), es.Pairwise (fun e e' => e.1 < e'.1) →
      (put dist r es).Pairwise fun e e' => e.1 < e'.1 := by
    intro dist es hes
    induction es with
    | nil => exact List.pairwise_singleton _ _
    | cons e es ih =>
      obtain ⟨he, htail⟩ := List.pairwise_cons.mp hes
      rw [put]
      split_ifs with heq hlt
      · exact .cons (fun e' he' => heq ▸ he e' he') htail
      · refine .cons (fun e' he' => ?_) hes
        rcases List.mem_cons.mp he' with rfl | he'
        · exact hlt
        · exact BitVec.lt_trans hlt (he e' he')
      · refine .cons (fun e' he' => ?_) (ih htail)
        rcases mem_put he' with rfl | he'
        · exact BitVec.lt_of_le_ne (BitVec.not_lt.mp hlt) heq
        · exact he e' he'
  exact hput _ _ h

theorem Sorted.lookup_of_mem {db : PeerDb} (h : db.Sorted) {e : Sha1 × PeerRecord} (he : e ∈ db.entries) :
    db.lookup (e.1 ^^^ db.nodeId) = some e.2 := by
  have hkey : e.1 ^^^ db.nodeId ^^^ db.nodeId = e.1 := by
    rw [BitVec.xor_assoc, BitVec.xor_self, BitVec.xor_zero]
  have hfind : ∀ es : List (Sha1 × PeerRecord), es.Pairwise (fun e e' => e.1 < e'.1) → e ∈ es →
      (es.find? fun e' => e'.1 = e.1) = some e := by
    intro es hes hmem
    induction es with
    | nil => cases hmem
    | cons e' es ih =>
      obtain ⟨he', htail⟩ := List.pairwise_cons.mp hes
      rcases List.mem_cons.mp hmem with rfl | hmem
      · simp
      · have hne : e'.1 ≠ e.1 := BitVec.ne_of_lt (he' e hmem)
        rw [List.find?_cons_of_neg (by simpa using hne)]
        exact ih htail hmem
  rw [lookup, hkey, hfind _ h he]
  rfl

theorem mem_of_lookup {db : PeerDb} {id : Sha1} {r : PeerRecord} (h : db.lookup id = some r) :
    ∃ e ∈ db.entries, e.2 = r := by
  obtain ⟨e, he, rfl⟩ := Option.map_eq_some_iff.mp h
  exact ⟨e, List.mem_of_find?_eq_some he, rfl⟩

/-- A record that is found by its endpoint is the one stored for its id. -/
theorem Sorted.lookup_fetchByEndpoint {db : PeerDb} (h : db.Sorted) {ep : Endpoint} {id : Sha1} {r : PeerRecord}
    (hf : db.fetchByEndpoint ep = some (id, r)) : db.lookup id = some r ∧ r.lastEp = ep := by
  obtain ⟨e, he, hep, rfl, rfl⟩ := fetchByEndpoint_mem hf
  exact ⟨h.lookup_of_mem he, hep⟩

end PeerDb
end Tornet
