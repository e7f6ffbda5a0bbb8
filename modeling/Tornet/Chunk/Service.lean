import Mathlib.Data.Nat.Size
import Tornet.Cafs.Basic

/-! `chunk_service`: chunks of `cafs` are pushed to peers, which keep a record of them, and are
downloaded from peers. -/
namespace Tornet.Chunk
open Cafs

/-- `chunk_session_result::result_enum`. -/
inductive Result where
  | ok | available | invalidRank | invalidSize | invalidRange | creditLimitReached | unknownChunk
  | alreadyStored | rejected | dataNotRandom | unknown
  deriving DecidableEq, Repr

/-- `db::chunk::meta`. -/
structure Meta where
  firstUpdate : UInt64 := 0
  lastUpdate : UInt64 := 0
  queryCount : UInt64 := 0
  size : UInt32 := 0
  distanceRank : UInt8 := 1
  deriving DecidableEq, Repr

/-- `db::chunk`: the records by distance from the node. -/
structure ChunkDb where
  nodeId : Sha1
  metas : Sha1 → Option Meta := fun _ => none

namespace ChunkDb

/-- `chunk::store_meta`. -/
def storeMeta (db : ChunkDb) (id : Sha1) (m : Meta) : ChunkDb :=
  { db with metas := Function.update db.metas (id ^^^ db.nodeId) (some m) }

/-- `161 - log2` of the distance, where `log2` counts significant bits. -/
def distanceRank (dist : Sha1) : UInt8 := UInt8.ofNat (161 - dist.toNat.size)

/-- `chunk::fetch_meta` into a fresh record: whether there was one, the record and the database. -/
def fetchMeta (db : ChunkDb) (now : UInt64) (id : Sha1) (autoInc : Bool) : Bool × Meta × ChunkDb :=
  match db.metas (id ^^^ db.nodeId) with
  | none =>
    let m : Meta := { firstUpdate := now, lastUpdate := now, distanceRank := distanceRank (id ^^^ db.nodeId) }
    if autoInc then (true, m, db.storeMeta id m) else (false, {}, db)
  | some m =>
    let m' := { m with queryCount := m.queryCount + 1, lastUpdate := now }
    if autoInc then (true, m', db.storeMeta id m') else (true, m, db)

/-- What a query for a chunk, or its storing, leaves. -/
def recorded (db : ChunkDb) (now : UInt64) (id : Sha1) : ChunkDb := (db.fetchMeta now id true).2.2

end ChunkDb

/-- `chunk_service_connection::store`. -/
def store (L : Lib) (now : UInt64) (db : ChunkDb) (data : Bytes) : Result × ChunkDb :=
  if isRandom L data = false then (.dataNotRandom, db)
  else if 1024 * 1024 < data.length then (.invalidSize, db)
  else (.ok, db.recorded now (L.sha1 data))

/-- `chunk_service::fetch_chunk`; `none` where it throws. -/
def fetchChunk (L : Lib) (disk : Disk) (id : Sha1) : Option Bytes := getChunk L disk id 0 (-1)

/-- `db::publish::record`. -/
structure PublishRecord where
  nextUpdate : UInt64 := 0
  accessInterval : UInt64 := 0
  hostCount : UInt32 := 0
  desiredHostCount : UInt32 := 0
  deriving DecidableEq, Repr

/-- The node to store a chunk on: the nearest that was found and does not host it. Both maps go from the
distance to a node. -/
def storeOnNode (hosting near : List (Sha1 × Sha1)) : Option Sha1 :=
  (near.find? fun n => n.1 ∉ hosting.map Prod.fst).map Prod.snd

/-- One turn of `publish_loop` for the chunk that is due, with the outcome of its search and peers that
answer; `none` where it throws. -/
def publishStep (L : Lib) (disk : Disk) (now : UInt64) (cid : Sha1) (r : PublishRecord)
    (hosting near : List (Sha1 × Sha1)) (peers : Sha1 → ChunkDb) : Option (PublishRecord × (Sha1 → ChunkDb)) :=
  let r := { r with hostCount := UInt32.ofNat hosting.length }
  let next := now + 30 * 1000 * 1000
  if hosting.length < r.desiredHostCount.toNat then
    match storeOnNode hosting near with
    | none => some ({ r with nextUpdate := next }, peers)
    | some node => do
      let data ← fetchChunk L disk cid
      let (result, db) := store L now (peers node) data
      let hostCount : UInt32 := if result = .ok then r.hostCount + 1 else r.hostCount
      some ({ r with nextUpdate := next, hostCount := hostCount }, Function.update peers node db)
  else some ({ r with nextUpdate := next }, peers)

/-- What comes of asking a host: no client for it, an exception of the call, or data. -/
inductive Answer where
  | unreachable | failed | reply (data : Bytes)
  deriving DecidableEq, Repr

/-- How `download_chunk` ends; behind its loop there is no `return`. -/
inductive Download where
  | returned (data : Bytes) | threw | noValue
  deriving DecidableEq, Repr

/-- The loop of `download_chunk` over the hosts that were found. -/
def askHosts (L : Lib) (id : Sha1) : List Answer → Download
  | [] => .noValue
  | .unreachable :: _ => .threw
  | .failed :: rest => askHosts L id rest
  | .reply data :: rest => if L.sha1 data = id then .returned data else askHosts L id rest

/-- `chunk_service::download_chunk`. -/
def downloadChunk (L : Lib) (disk : Disk) (id : Sha1) (hosts : List Answer) : Download :=
  match fetchChunk L disk id with
  | some data => .returned data
  | none => askHosts L id hosts

end Tornet.Chunk
