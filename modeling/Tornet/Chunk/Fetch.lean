import Tornet.Chunk.QueryCount

/-! The ranges of `chunk_service_connection::fetch`: what a request gets of a chunk whose record has a size. -/
namespace Tornet.Chunk.Fetch
open QueryCount (accessInterval FetchRequest FetchResponse response fetchMeta_found stored_storeMeta)

/-- `chunk_service_connection::fetch`, when no other call comes between its two calls of the database. -/
def fetch (db : ChunkDb) (now : UInt64) (r : FetchRequest) : FetchResponse × ChunkDb :=
  let (found, m, db) := db.fetchMeta now r.target true
  if found then (response r m, db.storeMeta r.target m) else ({ result := .unknownChunk }, db)

/-- The answers to requests that come one after the other, each with the reading of the clock. -/
def serve (db : ChunkDb) : List (UInt64 × FetchRequest) → List FetchResponse
  | [] => []
  | (now, r) :: rest => (fetch db now r).1 :: serve (fetch db now r).2 rest

/-- The size in the record of a chunk; zero, too, where there is no record or the chunk is not kept here. -/
def storedSize (db : ChunkDb) (id : Sha1) : Nat := ((db.metas (id ^^^ db.nodeId)).map fun m => m.size.toNat).getD 0

/-- The answer is a range of the chunk: none of it where the request begins outside. -/
structure Ranged (size : Nat) (length offset : Int) (reply : FetchResponse) : Prop where
  outside : length ≠ 0 → offset < 0 ∨ size ≤ offset → reply.result = .invalidRange ∧ reply.dataSize = 0
  nothing : length = 0 → reply.dataSize = 0
  whole : length < 0 → 0 ≤ offset → offset < size → (reply.dataSize : Int) = size - offset
  part : 0 < length → 0 ≤ offset → offset < size → (reply.dataSize : Int) = min length (size - offset)
  bound : reply.dataSize ≤ size

/-- What `fetch` answers by its design: a chunk that is not kept here is `ok` without data, and the range of one that is
kept is looked at only where data is asked for. -/
structure Answered (size : Nat) (length offset : Int) (reply : FetchResponse) : Prop where
  absent : size = 0 → reply.result = .ok ∧ reply.dataSize = 0
  query : size ≠ 0 → length = 0 → reply.result = .available ∧ reply.dataSize = 0
  outside : size ≠ 0 → length ≠ 0 → size ≤ offset → reply.result = .invalidRange ∧ reply.dataSize = 0
  whole : length < 0 → 0 ≤ offset → offset < size →
    reply.result = .available ∧ (reply.dataSize : Int) = size - offset
  part : 0 < length → 0 ≤ offset → offset < size →
    reply.result = .available ∧ (reply.dataSize : Int) = min length (size - offset)
  bound : 0 ≤ offset → reply.dataSize ≤ size

/-! ### The sizes -/

/-- The two numbers of 32 bits are subtracted without a borrow. -/
theorem toNat_rest {size : UInt32} {offset : Int32} (hoffset : 0 ≤ offset) (hlt : offset.toInt < size.toNat) :
    ((size - offset.toUInt32).toNat : Int) = size.toNat - offset.toInt := by
  have hcast : offset.toUInt32.toNat = offset.toNatClampNeg := Int32.toNat_toUInt32_of_le hoffset
  have hint : (offset.toNatClampNeg : Int) = offset.toInt := Int32.cast_toNatClampNeg offset hoffset
  have hle : offset.toUInt32 ≤ size := by
    rw [UInt32.le_iff_toNat_le]
    omega
  rw [UInt32.toNat_sub_of_le _ _ hle]
  omega

theorem toInt_eq_zero_iff (x : Int32) : x = 0 ↔ x.toInt = 0 := Int32.toInt_inj.symm

theorem toInt_neg_iff (x : Int32) : x < 0 ↔ x.toInt < 0 := Int32.lt_iff_toInt_lt

/-- Data inside the chunk, as the two branches with data set its size. -/
theorem response_inside {r : FetchRequest} {m : Meta} (hsize : m.size ≠ 0) (hlength : r.length ≠ 0)
    (hinside : r.offset.toInt < m.size.toNat) :
    (response r m).result = .available ∧ (response r m).dataSize =
      if r.length < 0 then (m.size - r.offset.toUInt32).toNat
      else min r.length.toInt.toNat (m.size - r.offset.toUInt32).toNat := by
  simp only [response, if_neg hsize, if_neg hlength, if_neg (Int.not_le.mpr hinside)]
  split_ifs <;> exact ⟨rfl, rfl⟩

/-- An answer without data, where none of the chunk is to be read. -/
theorem Answered.empty {size : Nat} {length offset : Int} {reply : FetchResponse} (hdata : reply.dataSize = 0)
    (hresult : reply.result = if size = 0 then .ok else if length = 0 then .available else .invalidRange)
    (hrange : size ≠ 0 → length ≠ 0 → size ≤ offset) : Answered size length offset reply where
  absent hsize := ⟨by rw [hresult, if_pos hsize], hdata⟩
  query hsize hlength := ⟨by rw [hresult, if_neg hsize, if_pos hlength], hdata⟩
  outside hsize hlength _ := ⟨by rw [hresult, if_neg hsize, if_neg hlength], hdata⟩
  whole _ _ hlt := absurd hlt (Int.not_lt.mpr (hrange (by omega) (by omega)))
  part _ _ hlt := absurd hlt (Int.not_lt.mpr (hrange (by omega) (by omega)))
  bound _ := hdata.trans_le (Nat.zero_le size)

/-- The answer from a record is the one described, for its size. -/
theorem response_answered (r : FetchRequest) (m : Meta) :
    Answered m.size.toNat r.length.toInt r.offset.toInt (response r m) := by
  have hzero : m.size = 0 ↔ m.size.toNat = 0 := by rw [← UInt32.toNat_inj, UInt32.toNat_zero]
  by_cases hsize : m.size = 0
  · have heq : response r m = { result := .ok, queryInterval := accessInterval m } := if_pos hsize
    rw [hzero] at hsize
    rw [heq]
    exact .empty rfl (by rw [if_pos hsize]) fun h => absurd hsize h
  by_cases hlength : r.length = 0
  · have heq : response r m = { result := .available, queryInterval := accessInterval m } := by
      simp only [response, if_neg hsize, if_pos hlength]
    rw [hzero] at hsize
    rw [toInt_eq_zero_iff] at hlength
    rw [heq]
    exact .empty rfl (by rw [if_neg hsize, if_pos hlength]) fun _ h => absurd hlength h
  by_cases hrange : (m.size.toNat : Int) ≤ r.offset.toInt
  · have heq : response r m = { result := .invalidRange, queryInterval := accessInterval m } := by
      simp only [response, if_neg hsize, if_neg hlength, if_pos hrange]
    rw [hzero] at hsize
    rw [toInt_eq_zero_iff] at hlength
    rw [heq]
    exact .empty rfl (by rw [if_neg hsize, if_neg hlength]) fun _ _ => hrange
  · obtain ⟨hresult, hdata⟩ := response_inside hsize hlength (Int.not_le.mp hrange)
    have hrest : 0 ≤ r.offset.toInt →
        ((m.size - r.offset.toUInt32).toNat : Int) = m.size.toNat - r.offset.toInt :=
      fun h => toNat_rest (Int32.le_iff_toInt_le.mpr h) (Int.not_le.mp hrange)
    rw [hzero] at hsize
    rw [toInt_eq_zero_iff] at hlength
    simp only [toInt_neg_iff] at hdata
    exact {
      absent := fun h => absurd h hsize
      query := fun _ h => absurd h hlength
      outside := fun _ _ h => absurd h hrange
      whole := fun hneg hlow _ => ⟨hresult, by rw [hdata, if_pos hneg, hrest hlow]⟩
      part := fun hpos hlow _ => ⟨hresult, by
        have := hrest hlow
        rw [hdata, if_neg hpos.not_gt]
        omega⟩
      bound := fun hlow => by
        have := hrest hlow
        rw [hdata]
        split_ifs <;> omega }

/-! ### The database -/

/-- The record that `fetch` gets has the size that was stored. -/
theorem fetchMeta_size (db : ChunkDb) (now : UInt64) (id : Sha1) :
    (db.fetchMeta now id true).2.1.size.toNat = storedSize db id := by
  cases hm : db.metas (id ^^^ db.nodeId) with
  | none => simp [ChunkDb.fetchMeta, storedSize, hm]
  | some m => simp [ChunkDb.fetchMeta, storedSize, hm]

theorem fetch_eq (db : ChunkDb) (now : UInt64) (r : FetchRequest) :
    ∃ m : Meta, m.size.toNat = storedSize db r.target ∧
      fetch db now r = (response r m, (db.storeMeta r.target m).storeMeta r.target m) := by
  obtain ⟨m, hm, -⟩ := fetchMeta_found db now r.target
  have hsize := fetchMeta_size db now r.target
  rw [hm] at hsize
  exact ⟨m, hsize, by rw [fetch, hm]; rfl⟩

private theorem storedSize_storeMeta (db : ChunkDb) (id t : Sha1) (m : Meta) :
    storedSize (db.storeMeta id m) t = if t = id then m.size.toNat else storedSize db t := by
  rw [storedSize, stored_storeMeta]
  split_ifs <;> rfl

/-- A request leaves all sizes as they are. -/
theorem storedSize_fetch (db : ChunkDb) (now : UInt64) (r : FetchRequest) (t : Sha1) :
    storedSize (fetch db now r).2 t = storedSize db t := by
  obtain ⟨m, hsize, heq⟩ := fetch_eq db now r
  rw [heq, storedSize_storeMeta, storedSize_storeMeta]
  split_ifs with ht
  · rw [ht, hsize]
  · rfl

private theorem fetch_answered (db : ChunkDb) (now : UInt64) (r : FetchRequest) :
    Answered (storedSize db r.target) r.length.toInt r.offset.toInt (fetch db now r).1 := by
  obtain ⟨m, hsize, heq⟩ := fetch_eq db now r
  rw [heq, ← hsize]
  exact response_answered r m

/-- Every one of the requests gets the range it asks for of the size that is stored when the first one comes. -/
theorem serve_answered (db : ChunkDb) (calls : List (UInt64 × FetchRequest)) :
    List.Forall₂
      (fun c reply => Answered (storedSize db c.2.target) c.2.length.toInt c.2.offset.toInt reply)
      calls (serve db calls) := by
  induction calls generalizing db with
  | nil => exact .nil
  | cons c rest ih =>
    refine .cons (fetch_answered db c.1 c.2) ?_
    have hrest := ih (fetch db c.1 c.2).2
    simp only [storedSize_fetch] at hrest
    exact hrest

/-- A record of a chunk that is not kept here. -/
def unkept : ChunkDb := ⟨0, fun dist => if dist = 7 then some { queryCount := 3 } else none⟩

/-- A request for the whole of it is answered `ok`. -/
theorem unkept_ok : ¬ Ranged (storedSize unkept 7) (-1) 0 (fetch unkept 5 ⟨7, -1, 0⟩).1 := by
  intro h
  have hreply := h.outside (by decide) (.inr (by decide +kernel))
  exact absurd hreply.1 (by decide +kernel)

end Tornet.Chunk.Fetch
