import Mathlib.Logic.Function.Basic
import Tornet.Chunk.Service

/-! `db::peer` and `db::publish` over Berkeley DB, with the `Dbt`s their functions prepare for keys and values. -/
namespace Tornet.Stores
open Library
open Chunk (PublishRecord)

/-! ### Berkeley DB -/

/-- A `Dbt` for a key: the memory its pointer was set to, and how many bytes of it are the key. -/
structure Dbt where
  data : Bytes := []
  size : Nat := 0
  ulen : Nat := 0
  deriving DecidableEq, Repr

/-- `Dbt( data, size )`. -/
def Dbt.mk' (data : Bytes) : Dbt := { data, size := data.length }

def Dbt.key (k : Dbt) : Bytes := k.data.take k.size

/-- A `Dbt` for a value to read: whether its pointer was set to the caller's variable, `DB_DBT_USERMEM`, and the
length of `DB_DBT_PARTIAL`. -/
structure ValueDbt where
  pointer : Bool := false
  usermem : Bool := false
  dlen : Option Nat := none
  deriving DecidableEq, Repr

/-- What a `get` comes to: with the caller's variable as it is then, or with a write through a null pointer. -/
inductive Got (α : Type) where
  | notFound
  | found (value : α)
  | fault
  deriving DecidableEq, Repr

section
variable {α V : Type}

/-- What becomes of the variable `r` when `value` is returned. -/
def ValueDbt.fill (val : ValueDbt) (value r : α) : Got α :=
  if val.dlen = some 0 ∨ val.usermem = false then .found r
  else if val.pointer then .found value else .fault

def keyBytes (dist : Sha1) : Bytes := (Codec.beWord 20).pack dist

/-- `Db::get`, by the bytes of the key. -/
def get (db : Bytes → Option V) (key : Dbt) (val : ValueDbt) (r : V) : Got V :=
  match db key.key with
  | none => .notFound
  | some value => val.fill value r

/-! ### What both stores do alike -/

/-- `fetch`: the key gets its memory and a limit for it, but no size; the value gets no memory. -/
def fetch (db : Bytes → Option V) (dist : Sha1) (r : V) : Option (Bool × V) :=
  match get db { data := keyBytes dist, ulen := 20 } { usermem := true } r with
  | .notFound => some (false, r)
  | .found r => some (true, r)
  | .fault => none

/-- `exists`: the second call of `set_flags` takes back the first. -/
def «exists» (db : Bytes → Option V) (dist : Sha1) (r : V) : Bool :=
  match get db (.mk' (keyBytes dist)) { dlen := some 0 } r with
  | .notFound => false
  | .found _ | .fault => true

end

/-! ### `db::peer` -/

namespace Peer

def find (db : PeerDb) (key : Bytes) : Option PeerRecord :=
  (db.entries.find? fun e => keyBytes e.1 = key).map Prod.snd

def fetch (db : PeerDb) (id : Sha1) (r : PeerRecord) : Option (Bool × PeerRecord) :=
  Stores.fetch (find db) (id ^^^ db.nodeId) r

def «exists» (db : PeerDb) (id : Sha1) : Bool := Stores.exists (find db) (id ^^^ db.nodeId) {}

/-- `peer::store`; `none` where it throws. -/
def store (sha1 : Bytes → Sha1) (db : PeerDb) (id : Sha1) (m : PeerRecord) : Option PeerDb :=
  if sha1 m.publicKey = id then some (db.store id m) else none

/-- The bytes of an endpoint, as `get_peer_ep` cuts them from the start of a record. -/
def endpointBytes (ep : Endpoint) : Bytes := (Codec.word 4).pack ep.ip ++ (Codec.word 2).pack ep.port

/-- `fetch_by_endpoint` with its two results: the first entry in the index for the bytes of the endpoint. -/
def fetchByEndpoint (db : PeerDb) (ep : Endpoint) (id : Sha1) (m : PeerRecord) : Bool × Sha1 × PeerRecord :=
  let skey := Dbt.mk' (endpointBytes ep)
  let pkey : ValueDbt := { pointer := true, usermem := true }
  let pdata : ValueDbt := { pointer := true, usermem := true }
  match db.entries.find? fun e => endpointBytes e.2.lastEp = skey.key with
  | none => (false, id, m)
  | some e =>
    match pkey.fill e.1 id, pdata.fill e.2 m with
    | .found dist, .found r => (true, dist ^^^ db.nodeId, r)
    | _, _ => (true, id ^^^ db.nodeId, m)

/-- The database after calls of `store`; one that throws changes nothing. -/
def storeAll (sha1 : Bytes → Sha1) (db : PeerDb) (ops : List (Sha1 × PeerRecord)) : PeerDb :=
  ops.foldl (fun db o => (store sha1 db o.1 o.2).getD db) db

end Peer

/-! ### `db::publish` -/

namespace Publish

abbrev PublishDb := Bytes → Option PublishRecord

def fetch (db : PublishDb) (id : Sha1) (r : PublishRecord) : Option (Bool × PublishRecord) := Stores.fetch db id r

def «exists» (db : PublishDb) (id : Sha1) : Bool := Stores.exists db id {}

def store (db : PublishDb) (id : Sha1) (m : PublishRecord) : PublishDb :=
  Function.update db (Dbt.mk' (keyBytes id)).key (some m)

def storeAll (db : PublishDb) (ops : List (Sha1 × PublishRecord)) : PublishDb :=
  ops.foldl (fun db o => store db o.1 o.2) db

end Publish

/-! ### What a reader is promised -/

def latest {V : Type} (ops : List (Sha1 × V)) (id : Sha1) : Option V :=
  (ops.reverse.find? fun o => o.1 = id).map Prod.snd

/-- The calls of `peer::store` that do not throw. -/
def accepted (sha1 : Bytes → Sha1) (ops : List (Sha1 × PeerRecord)) : List (Sha1 × PeerRecord) :=
  ops.filter fun o => sha1 o.2.publicKey = o.1

/-- A fetch returns, with true exactly if the id exists, and then with its latest record. -/
def ReadsBack {V : Type} (fetched : Option (Bool × V)) («exists» : Bool) (latest : Option V) : Prop :=
  ∃ found r, fetched = some (found, r) ∧ found = «exists» ∧ (found = true → latest = some r)

/-- A fetch by endpoint returns true exactly if a latest record has the endpoint, and then one that does. -/
def FindsEndpoint (found : Bool × Sha1 × PeerRecord) (ep : Endpoint) (latest : Sha1 → Option PeerRecord) : Prop :=
  (found.1 = true ↔ ∃ id r, latest id = some r ∧ r.lastEp = ep) ∧
    (found.1 = true → latest found.2.1 = some found.2.2 ∧ found.2.2.lastEp = ep)

/-! ### Keys -/

section
variable {V : Type}

theorem key_mk' (data : Bytes) : (Dbt.mk' data).key = data := List.take_length

private theorem length_keyBytes (dist : Sha1) : (keyBytes dist).length = 20 := by
  simp [keyBytes, Codec.beWord, Codec.fixed, Codec.length_leBytes]

theorem keyBytes_inj {a b : Sha1} : keyBytes a = keyBytes b ↔ a = b := by
  refine ⟨fun h => ?_, congrArg keyBytes⟩
  have ha := (Codec.beWord 20).unpack_pack a []
  rw [show (Codec.beWord 20).pack a = (Codec.beWord 20).pack b from h, (Codec.beWord 20).unpack_pack] at ha
  exact (congrArg Prod.fst (Option.some.inj ha)).symm

def Keyed (db : Bytes → Option V) : Prop := db [] = none

/-- `fetch` looks up the empty key, whatever id it is called with. -/
theorem fetch_eq {db : Bytes → Option V} (h : Keyed db) (dist : Sha1) (r : V) : fetch db dist r = some (false, r) := by
  have hkey : (⟨keyBytes dist, 0, 20⟩ : Dbt).key = [] := List.take_zero
  rw [fetch, get, hkey, h]

theorem exists_eq (db : Bytes → Option V) (dist : Sha1) (r : V) : Stores.exists db dist r = (db (keyBytes dist)).isSome := by
  rw [Stores.exists, get, key_mk']
  cases db (keyBytes dist) <;> rfl

/-- What is promised of a fetch is kept exactly where there is nothing to read. -/
theorem readsBack_iff {db : Bytes → Option V} (h : Keyed db) (dist : Sha1) (r r' : V) :
    ReadsBack (fetch db dist r) (Stores.exists db dist r') (db (keyBytes dist)) ↔ db (keyBytes dist) = none := by
  rw [ReadsBack, fetch_eq h, exists_eq]
  constructor
  · rintro ⟨found, s, heq, hfound, -⟩
    have hfalse : (db (keyBytes dist)).isSome = false := hfound ▸ (congrArg Prod.fst (Option.some.inj heq)).symm
    exact Option.not_isSome_iff_eq_none.mp (by rw [hfalse]; exact Bool.false_ne_true)
  · intro hnone
    exact ⟨false, r, rfl, by rw [hnone]; rfl, fun hf => absurd hf Bool.false_ne_true⟩

/-- A first store counts for an id that no later one is for. -/
theorem latest_cons (o : Sha1 × V) (ops : List (Sha1 × V)) (id : Sha1) :
    latest (o :: ops) id = (latest ops id).or (if o.1 = id then some o.2 else none) := by
  rw [latest, latest, List.reverse_cons, List.find?_append, List.find?_singleton]
  cases ops.reverse.find? fun o => o.1 = id with
  | some e => rfl
  | none => by_cases h : o.1 = id <;> simp [h]

end

/-! ### Histories of stores -/

namespace Peer
variable (sha1 : Bytes → Sha1)

private theorem keyed_find (db : PeerDb) : Keyed (find db) := by
  rw [Keyed, find, Option.map_eq_none_iff, List.find?_eq_none]
  intro e _ h
  have hlen := congrArg List.length (of_decide_eq_true h)
  rw [length_keyBytes, List.length_nil] at hlen
  omega

private theorem find_keyBytes (db : PeerDb) (id : Sha1) : find db (keyBytes (id ^^^ db.nodeId)) = db.lookup id := by
  simp only [find, PeerDb.lookup, keyBytes_inj]

private theorem store_lookup (db : PeerDb) (o : Sha1 × PeerRecord) (id : Sha1) :
    ((store sha1 db o.1 o.2).getD db).lookup id =
      if sha1 o.2.publicKey = o.1 ∧ o.1 = id then some o.2 else db.lookup id := by
  by_cases hcheck : sha1 o.2.publicKey = o.1
  · rw [store, if_pos hcheck, Option.getD_some, PeerDb.lookup_store]
    simp only [hcheck, true_and, eq_comm]
  · rw [store, if_neg hcheck, Option.getD_none, if_neg fun h => hcheck h.1]

private theorem storeAll_lookup (db : PeerDb) (ops : List (Sha1 × PeerRecord)) (id : Sha1) :
    (storeAll sha1 db ops).lookup id = (latest (accepted sha1 ops) id).or (db.lookup id) := by
  induction ops generalizing db with
  | nil => rfl
  | cons o ops ih =>
    rw [storeAll, List.foldl_cons]
    change (storeAll sha1 _ ops).lookup id = _
    rw [ih, store_lookup]
    by_cases hcheck : sha1 o.2.publicKey = o.1
    · have hkept : accepted sha1 (o :: ops) = o :: accepted sha1 ops := List.filter_cons_of_pos (decide_eq_true hcheck)
      rw [hkept, latest_cons, Option.or_assoc]
      by_cases hid : o.1 = id <;> simp [hcheck, hid]
    · have hdropped : accepted sha1 (o :: ops) = accepted sha1 ops := List.filter_cons_of_neg (by simpa using hcheck)
      rw [hdropped, if_neg fun h => hcheck h.1]

theorem storeAll_sorted {db : PeerDb} (h : db.Sorted) (ops : List (Sha1 × PeerRecord)) : (storeAll sha1 db ops).Sorted := by
  induction ops generalizing db with
  | nil => exact h
  | cons o ops ih =>
    have hstep : ((store sha1 db o.1 o.2).getD db).Sorted := by
      by_cases hcheck : sha1 o.2.publicKey = o.1
      · rw [store, if_pos hcheck]
        exact h.store o.1 o.2
      · rw [store, if_neg hcheck]
        exact h
    exact ih hstep

/-- What was stored since the database was new. -/
theorem lookup_new (nodeId : Sha1) (ops : List (Sha1 × PeerRecord)) (id : Sha1) :
    (storeAll sha1 ⟨nodeId, []⟩ ops).lookup id = latest (accepted sha1 ops) id := by
  rw [storeAll_lookup]
  exact Option.or_none

theorem readsBack_iff (nodeId : Sha1) (ops : List (Sha1 × PeerRecord)) (id : Sha1) (r : PeerRecord) :
    ReadsBack (fetch (storeAll sha1 ⟨nodeId, []⟩ ops) id r) (Peer.exists (storeAll sha1 ⟨nodeId, []⟩ ops) id)
        (latest (accepted sha1 ops) id) ↔ latest (accepted sha1 ops) id = none := by
  rw [← lookup_new sha1 nodeId, ← find_keyBytes]
  exact Stores.readsBack_iff (keyed_find _) _ r {}

theorem endpointBytes_inj {a b : Endpoint} : endpointBytes a = endpointBytes b ↔ a = b := by
  refine ⟨fun h => ?_, congrArg endpointBytes⟩
  let format : Codec (BitVec 32 × BitVec 16) := (Codec.word 4).pair (Codec.word 2)
  have ha := format.unpack_pack (a.ip, a.port) []
  rw [show format.pack (a.ip, a.port) = format.pack (b.ip, b.port) from h, format.unpack_pack] at ha
  obtain ⟨hip, hport⟩ := Prod.mk.inj (congrArg Prod.fst (Option.some.inj ha))
  cases a
  cases b
  exact (congrArg₂ Endpoint.mk hip hport).symm

/-- The results are those of the index. -/
theorem fetchByEndpoint_eq (db : PeerDb) (ep : Endpoint) (id : Sha1) (m : PeerRecord) :
    fetchByEndpoint db ep id m = match db.fetchByEndpoint ep with
      | none => (false, id, m)
      | some (x, r) => (true, x, r) := by
  simp only [fetchByEndpoint, PeerDb.fetchByEndpoint, key_mk', endpointBytes_inj]
  cases db.entries.find? fun e => decide (e.2.lastEp = ep) <;> rfl

theorem findsEndpoint (nodeId : Sha1) (ops : List (Sha1 × PeerRecord)) (ep : Endpoint) (id : Sha1) (m : PeerRecord) :
    FindsEndpoint (fetchByEndpoint (storeAll sha1 ⟨nodeId, []⟩ ops) ep id m) ep (latest (accepted sha1 ops)) := by
  generalize hdb : storeAll sha1 ⟨nodeId, []⟩ ops = db
  have hnew : (⟨nodeId, []⟩ : PeerDb).Sorted := List.Pairwise.nil
  have hsorted : db.Sorted := hdb ▸ storeAll_sorted sha1 hnew ops
  have hlatest (x : Sha1) : latest (accepted sha1 ops) x = db.lookup x := by rw [← hdb, lookup_new]
  rw [fetchByEndpoint_eq]
  cases hf : db.fetchByEndpoint ep with
  | none =>
    refine ⟨⟨fun h => absurd h Bool.false_ne_true, ?_⟩, fun h => absurd h Bool.false_ne_true⟩
    rintro ⟨x, r, hx, hr⟩
    obtain ⟨e, he, rfl⟩ := PeerDb.mem_of_lookup ((hlatest x).symm.trans hx)
    rw [PeerDb.fetchByEndpoint, Option.map_eq_none_iff, List.find?_eq_none] at hf
    exact absurd (decide_eq_true hr) (hf e he)
  | some found =>
    obtain ⟨hlookup, hep⟩ := hsorted.lookup_fetchByEndpoint hf
    rw [← hlatest] at hlookup
    exact ⟨⟨fun _ => ⟨found.1, found.2, hlookup, hep⟩, fun _ => rfl⟩, fun _ => ⟨hlookup, hep⟩⟩

end Peer

namespace Publish

private theorem storeAll_apply (db : PublishDb) (ops : List (Sha1 × PublishRecord)) (id : Sha1) :
    storeAll db ops (keyBytes id) = (latest ops id).or (db (keyBytes id)) := by
  induction ops generalizing db with
  | nil => rfl
  | cons o ops ih =>
    rw [storeAll, List.foldl_cons]
    change storeAll _ ops (keyBytes id) = _
    rw [ih, latest_cons, Option.or_assoc, store, key_mk', Function.update_apply]
    by_cases hid : o.1 = id
    · simp [hid]
    · simp [hid, keyBytes_inj, Ne.symm hid]

theorem storeAll_keyed {db : PublishDb} (h : Keyed db) (ops : List (Sha1 × PublishRecord)) : Keyed (storeAll db ops) := by
  induction ops generalizing db with
  | nil => exact h
  | cons o ops ih =>
    have hne : ([] : Bytes) ≠ keyBytes o.1 := by
      intro hnil
      have hlen := congrArg List.length hnil
      rw [length_keyBytes, List.length_nil] at hlen
      omega
    have hstep : Keyed (store db o.1 o.2) := by
      rw [Keyed, store, key_mk', Function.update_of_ne hne]
      exact h
    exact ih hstep

theorem readsBack_iff (ops : List (Sha1 × PublishRecord)) (id : Sha1) (r : PublishRecord) :
    ReadsBack (fetch (storeAll (fun _ => none) ops) id r) (Publish.exists (storeAll (fun _ => none) ops) id)
        (latest ops id) ↔ latest ops id = none := by
  have hlatest : latest ops id = storeAll (fun _ => none) ops (keyBytes id) := by
    rw [storeAll_apply]
    exact Option.or_none.symm
  have hnew : Keyed (fun _ => none : PublishDb) := rfl
  rw [hlatest]
  exact Stores.readsBack_iff (storeAll_keyed hnew ops) id r {}

end Publish

/-- After any stores in a new database, a fetch by id does what it should if and only if nothing is stored for the id,
in either database; a fetch by endpoint always does. -/
theorem reads_iff_nothing_stored (sha1 : Bytes → Sha1) (nodeId : Sha1) (ops : List (Sha1 × PeerRecord)) (id : Sha1)
    (r : PeerRecord) (pops : List (Sha1 × PublishRecord)) (chunk : Sha1) (p : PublishRecord) :
    (ReadsBack (Peer.fetch (Peer.storeAll sha1 ⟨nodeId, []⟩ ops) id r)
        (Peer.exists (Peer.storeAll sha1 ⟨nodeId, []⟩ ops) id) (latest (accepted sha1 ops) id) ↔
      latest (accepted sha1 ops) id = none) ∧
    (ReadsBack (Publish.fetch (Publish.storeAll (fun _ => none) pops) chunk p)
        (Publish.exists (Publish.storeAll (fun _ => none) pops) chunk) (latest pops chunk) ↔ latest pops chunk = none) ∧
    ∀ (ep : Endpoint) (id' : Sha1) (m : PeerRecord),
      FindsEndpoint (Peer.fetchByEndpoint (Peer.storeAll sha1 ⟨nodeId, []⟩ ops) ep id' m) ep (latest (accepted sha1 ops)) :=
  ⟨Peer.readsBack_iff sha1 nodeId ops id r, Publish.readsBack_iff pops chunk p,
    fun ep id' m => Peer.findsEndpoint sha1 nodeId ops ep id' m⟩

/-- A record that was just stored is not found. -/
theorem stored_not_read : ¬ ∀ (ops : List (Sha1 × PublishRecord)) (id : Sha1) (r : PublishRecord),
    ReadsBack (Publish.fetch (Publish.storeAll (fun _ => none) ops) id r)
      (Publish.exists (Publish.storeAll (fun _ => none) ops) id) (latest ops id) := by
  intro h
  have hnone := (Publish.readsBack_iff [(5, { hostCount := 1 })] 5 {}).mp (h [(5, { hostCount := 1 })] 5 {})
  exact absurd hnone (by decide +kernel)

end Tornet.Stores
