import Tornet.Library.Indexed
import Tornet.Library.Nearest
import Tornet.Library.Xor
import Tornet.Chunk.Revenue
import Tornet.Kad.Search

/-! `db::chunk` over Berkeley DB: the records by distance with their record numbers, the index by annual revenue, and
the queries along it. -/
namespace Tornet.Chunk.MetaIndex
open Library Nearest Runs Revenue Xor

/-- `get_annual_rev`; a record for which it divides by zero is not stored. -/
def rate (m : Meta) : Int64 := (annualRevenueRate m).getD 0

/-- `meta_record`. -/
structure MetaRecord where
  key : Sha1
  value : Meta
  deriving DecidableEq, Repr

inductive DbException where
  | einval
  deriving DecidableEq, Repr

/-- `db::chunk` with both databases. No function reads `log`: it holds what was stored, the latest first. -/
structure MetaDb where
  nodeId : Sha1
  table : Table Sha1 Int64 Meta rate := .empty
  log : List (Sha1 × Meta) := []

namespace MetaDb

/-- The constructor and `init`, in a new directory. -/
def create (nodeId : Sha1) : MetaDb := { nodeId }

/-- `chunk::store_meta`; `none` where the division for the index ends the process. -/
def storeMeta (db : MetaDb) (id : Sha1) (m : Meta) : Option MetaDb :=
  (annualRevenueRate m).map fun _ =>
    { db with table := db.table.put (id ^^^ db.nodeId) m, log := (id, m) :: db.log }

/-- `chunk::fetch_meta` into the record `m`, with the readings of the clock. -/
def fetchMeta (db : MetaDb) (first last : UInt64) (id : Sha1) (m : Meta) (autoInc : Bool) :
    Option (Bool × Meta × MetaDb) :=
  match db.table.primary.get? (id ^^^ db.nodeId) with
  | none =>
    if autoInc then
      let rank := ChunkDb.distanceRank (id ^^^ db.nodeId)
      let m := { m with distanceRank := rank, firstUpdate := first, lastUpdate := last, queryCount := 0 }
      (db.storeMeta id m).map fun db => (true, m, db)
    else some (false, m, db)
  | some m =>
    if autoInc then
      let m := { m with queryCount := m.queryCount + 1, lastUpdate := last }
      (db.storeMeta id m).map fun db => (true, m, db)
    else some (true, m, db)

/-- The loop of both queries along the index, from the entry at which the cursor is; `none` where an entry has no
record. -/
def fill (db : MetaDb) (n : Nat) : List (Int64 ×ₗ Sha1) → List MetaRecord → Option (List MetaRecord)
  | [], m => some m
  | e :: rest, m =>
    match db.table.pget e with
    | none => none
    | some (dist, value) =>
      let m := m ++ [⟨dist ^^^ db.nodeId, value⟩]
      if m.length < n then fill db n rest m else some m

/-- `chunk::fetch_worst_performance`. -/
def fetchWorstPerformance (db : MetaDb) (n : Nat) : Option (List MetaRecord) :=
  db.fill n (db.table.index.dropWhile fun e => (ofLex e).1 < 1) []

/-- `chunk::fetch_best_opportunity`. -/
def fetchBestOpportunity (db : MetaDb) (n : Nat) : Option (List MetaRecord) := db.fill n db.table.index []

/-- `Db::get` with `DB_SET_RECNO`: the handle was opened with exceptions on, and 0 is no record number. -/
def getRecno (db : MetaDb) (rn : UInt32) : Except DbException (Option (Sha1 × Meta)) :=
  if rn = 0 then .error .einval else .ok db.table.primary.entries[rn.toNat - 1]?

/-- `chunk::fetch_index` into `id` and `m`. -/
def fetchIndex (db : MetaDb) (recnum : UInt32) (id : Sha1) (m : Meta) : Except DbException (Bool × Sha1 × Meta) := do
  match ← db.getRecno recnum with
  | some (dist, value) => return (true, dist ^^^ db.nodeId, value)
  | none => return (false, id, m)

/-- `chunk::count`: the record number of the last record. -/
def count (db : MetaDb) : UInt32 :=
  match db.table.primary.lastKey? with
  | some dist => .ofNat (db.table.primary.recnoOf dist)
  | none => 0

end MetaDb

inductive Event where
  | storeMeta (id : Sha1) (m : Meta)
  | fetchMeta (first last : UInt64) (id : Sha1) (m : Meta) (autoInc : Bool)
  deriving DecidableEq

def step (db : MetaDb) : Event → Option MetaDb
  | .storeMeta id m => db.storeMeta id m
  | .fetchMeta first last id m autoInc => (db.fetchMeta first last id m autoInc).map fun r => r.2.2

/-! ### What is promised -/

/-- The revenue of a record, and its distance from the node. -/
def MetaDb.place (db : MetaDb) (r : MetaRecord) : Int64 ×ₗ Sha1 := toLex (rate r.value, r.key ^^^ db.nodeId)

def MetaDb.stored (db : MetaDb) : Set MetaRecord := { r | db.log.lookup r.key = some r.value }

/-- The database has the latest records, and the index was made without a division by zero. -/
structure MetaDb.Inv (db : MetaDb) : Prop where
  latest : ∀ dist, db.table.primary.get? dist = db.log.lookup (dist ^^^ db.nodeId)
  divides : ∀ dist m, db.table.primary.get? dist = some m → annualRevenueRate m = some (rate m)

namespace MetaDb
variable {db db' : MetaDb} {n : Nat}

private theorem inv_create (nodeId : Sha1) : (create nodeId).Inv := by
  constructor
  · intro dist
    rfl
  · intro dist m h
    cases h

theorem Inv.storeMeta {id : Sha1} {m : Meta} (h : db.Inv) (hs : db.storeMeta id m = some db') : db'.Inv := by
  obtain ⟨k, hk, rfl⟩ := Option.map_eq_some_iff.mp hs
  constructor
  · intro dist
    change (db.table.put _ _).primary.get? dist = List.lookup (dist ^^^ db.nodeId) ((id, m) :: db.log)
    rw [Table.get?_put, List.lookup_cons]
    by_cases hd : dist = id ^^^ db.nodeId
    · rw [if_pos hd, hd, xor_back, beq_self_eq_true]
    · have hne : (dist ^^^ db.nodeId == id) = false := by
        apply beq_false_of_ne
        rintro rfl
        exact hd (xor_back _ _).symm
      rw [if_neg hd, hne]
      exact h.latest dist
  · intro dist m' hm'
    change (db.table.put _ _).primary.get? dist = some m' at hm'
    rw [Table.get?_put] at hm'
    split_ifs at hm' with hd
    · obtain rfl := Option.some.inj hm'
      rw [rate, hk]
      rfl
    · exact h.divides dist m' hm'

private theorem fetchMeta_store {first last : UInt64} {id : Sha1} {m : Meta} {autoInc : Bool} {r : Bool × Meta × MetaDb}
    (h : db.fetchMeta first last id m autoInc = some r) : r.2.2 = db ∨ ∃ m', db.storeMeta id m' = some r.2.2 := by
  rw [fetchMeta] at h
  split at h
  · split_ifs at h
    · obtain ⟨db', hdb', rfl⟩ := Option.map_eq_some_iff.mp h
      exact .inr ⟨_, hdb'⟩
    · obtain rfl := Option.some.inj h
      exact .inl rfl
  · split_ifs at h
    · obtain ⟨db', hdb', rfl⟩ := Option.map_eq_some_iff.mp h
      exact .inr ⟨_, hdb'⟩
    · obtain rfl := Option.some.inj h
      exact .inl rfl

theorem Inv.step {e : Event} (h : db.Inv) (hs : step db e = some db') : db'.Inv := by
  cases e with
  | storeMeta id m => exact h.storeMeta hs
  | fetchMeta first last id m autoInc =>
    obtain ⟨r, hr, rfl⟩ := Option.map_eq_some_iff.mp hs
    rcases fetchMeta_store hr with heq | ⟨m', hm'⟩
    · rwa [heq]
    · exact h.storeMeta hm'

theorem run_inv {nodeId : Sha1} {es : List Event} (hr : run MetaIndex.step (create nodeId) es = some db) : db.Inv :=
  invariant_of_step Inv (fun _ _ _ h hs => h.step hs) (inv_create nodeId) hr

/-! ### The queries along the index -/

def record (db : MetaDb) (e : Sha1 × Meta) : MetaRecord := ⟨e.1 ^^^ db.nodeId, e.2⟩

/-- The loop returns the records of the entries, at least one and at most as many as asked for. -/
theorem fill_eq {es : List (Int64 ×ₗ Sha1)} (hes : ∀ e ∈ es, e ∈ db.table.index) (m : List MetaRecord)
    (hm : m = [] ∨ m.length < n) :
    db.fill n es m = some ((m ++ (es.filterMap db.table.pget).map db.record).take (max n (m.length + 1))) := by
  induction es generalizing m with
  | nil =>
    rw [fill, List.filterMap_nil, List.map_nil, List.append_nil, List.take_of_length_le (by omega)]
  | cons e es ih =>
    rw [List.forall_mem_cons] at hes
    obtain ⟨v, hget, -, -⟩ := db.table.pget_eq_some hes.1
    rw [List.filterMap_cons_some hget, List.map_cons, List.append_cons m]
    generalize hmore : m ++ [db.record ((ofLex e).2, v)] = m'
    have hlen : m'.length = m.length + 1 := by
      rw [← hmore]
      exact List.length_append
    have hturn : db.fill n (e :: es) m = if m'.length < n then db.fill n es m' else some m' := by
      rw [fill, hget, ← hmore]
      rfl
    rw [hturn]
    split_ifs with hn
    · rw [ih hes.2 m' (.inr hn), max_eq_left (by omega), max_eq_left (by omega)]
    · rw [max_eq_right (by omega), ← hlen, List.take_left]

theorem mem_stored_iff (h : db.Inv) (r : MetaRecord) :
    r ∈ db.stored ↔ (r.key ^^^ db.nodeId, r.value) ∈ db.table.listed := by
  rw [Table.mem_listed_iff, h.latest, xor_back]
  rfl

private theorem listed_record (h : db.Inv) (r : MetaRecord) : r ∈ db.table.listed.map db.record ↔ r ∈ db.stored := by
  rw [mem_stored_iff h, List.mem_map]
  constructor
  · rintro ⟨⟨dist, v⟩, he, rfl⟩
    change (dist ^^^ db.nodeId ^^^ db.nodeId, v) ∈ _
    rwa [xor_back]
  · intro he
    refine ⟨_, he, ?_⟩
    rw [record, xor_back]

private theorem place_record (e : Sha1 × Meta) : db.place (db.record e) = Table.place rate e := by
  rw [place, record, xor_back]
  rfl

theorem listed_ordered (db : MetaDb) : (db.table.listed.map db.record).Pairwise fun a b => db.place a < db.place b := by
  rw [List.pairwise_map]
  simp only [place_record]
  exact db.table.listed_pairwise

private theorem index_le (db : MetaDb) : db.table.index.Pairwise fun a b => (ofLex a).1 ≤ (ofLex b).1 :=
  db.table.sorted.imp fun h => (Prod.Lex.le_iff'.mp h.le).1

/-- The entries from a revenue of 1 on are those of the records that bring something in. -/
theorem paying_record (h : db.Inv) (r : MetaRecord) :
    r ∈ ((db.table.index.dropWhile fun e => (ofLex e).1 < 1).filterMap db.table.pget).map db.record ↔
      r ∈ db.stored ∧ 1 ≤ rate r.value := by
  rw [mem_stored_iff h, List.mem_map]
  constructor
  · rintro ⟨⟨dist, v⟩, he, rfl⟩
    obtain ⟨e, hmem, hget⟩ := List.mem_filterMap.mp he
    obtain ⟨hin, hpos⟩ := (mem_dropWhile_lt db.index_le).mp hmem
    obtain ⟨w, hw, -, hrate⟩ := db.table.pget_eq_some hin
    obtain ⟨rfl, rfl⟩ := Prod.mk.inj (Option.some.inj (hget.symm.trans hw))
    rw [← hrate] at hpos
    refine ⟨?_, hpos⟩
    rw [record, xor_back]
    exact List.mem_filterMap.mpr ⟨e, hin, hget⟩
  · rintro ⟨he, hpos⟩
    obtain ⟨e, hin, hget⟩ := List.mem_filterMap.mp he
    obtain ⟨w, hw, -, hrate⟩ := db.table.pget_eq_some hin
    obtain ⟨hdist, hvalue⟩ := Prod.mk.inj (Option.some.inj (hget.symm.trans hw))
    rw [hvalue, hrate] at hpos
    refine ⟨_, List.mem_filterMap.mpr ⟨e, (mem_dropWhile_lt db.index_le).mpr ⟨hin, hpos⟩, hget⟩, ?_⟩
    rw [record, xor_back]

/-- Whatever was stored and queried before: the records that were asked for are, with their latest contents and each
once, those of the lowest revenue, and for the worst performance those of the lowest that is positive. At least one is
returned, if there is one. No stored record lacks its revenue. -/
theorem revenue_queries {nodeId : Sha1} {es : List Event} (hr : run MetaIndex.step (create nodeId) es = some db) (n : Nat) :
    (∃ rs, db.fetchWorstPerformance n = some rs ∧
        Firsts db.place { r | r ∈ db.stored ∧ 1 ≤ rate r.value } (max n 1) rs) ∧
      (∃ rs, db.fetchBestOpportunity n = some rs ∧ Firsts db.place db.stored (max n 1) rs) ∧
        ∀ r ∈ db.stored, annualRevenueRate r.value = some (rate r.value) := by
  have h := run_inv hr
  refine ⟨⟨_, fill_eq (fun e he => (List.dropWhile_sublist _).mem he) [] (.inl rfl), ?_⟩,
    ⟨_, fill_eq (fun e he => he) [] (.inl rfl), ?_⟩, ?_⟩
  · apply Firsts.take (paying_record h)
    apply List.Pairwise.sublist _ db.listed_ordered
    exact ((List.dropWhile_sublist _).filterMap db.table.pget).map db.record
  · exact Firsts.take (listed_record h) db.listed_ordered _
  · intro r hr
    exact h.divides _ _ ((Table.mem_listed_iff _ _ _).mp ((mem_stored_iff h r).mp hr))

/-- A chunk of 1000 bytes that is asked for every second, one that is asked for as often but not held, and one that was
asked for once. -/
def threeChunks : List Event :=
  [.storeMeta 5 { lastUpdate := 10000000, queryCount := 10, size := 1000 },
    .storeMeta 6 { lastUpdate := 10000000, queryCount := 10 }, .fetchMeta 7 8 9 {} true]

theorem revenue_queries_three : ∃ db, run MetaIndex.step (create 1) threeChunks = some db ∧
    (∃ rs, db.fetchWorstPerformance 2 = some rs ∧ rs.map MetaRecord.key = [5] ∧
      Firsts db.place { r | r ∈ db.stored ∧ 1 ≤ rate r.value } 2 rs) ∧
    ∃ rs, db.fetchBestOpportunity 2 = some rs ∧ rs.map MetaRecord.key = [6, 9] ∧ Firsts db.place db.stored 2 rs := by
  have hr : run MetaIndex.step (create 1) threeChunks = some ((run MetaIndex.step (create 1) threeChunks).get rfl) := rfl
  obtain ⟨⟨rs, hrs, hworst⟩, ⟨rs', hrs', hbest⟩, -⟩ := revenue_queries hr 2
  have hkeys : (((run MetaIndex.step (create 1) threeChunks).get rfl).fetchWorstPerformance 2).map
      (List.map MetaRecord.key) = some [5] := by decide +kernel
  have hkeys' : (((run MetaIndex.step (create 1) threeChunks).get rfl).fetchBestOpportunity 2).map
      (List.map MetaRecord.key) = some [6, 9] := by decide +kernel
  rw [hrs] at hkeys
  rw [hrs'] at hkeys'
  exact ⟨_, hr, ⟨rs, hrs, Option.some.inj hkeys, hworst⟩, rs', hrs', Option.some.inj hkeys', hbest⟩

/-! ### Record numbers -/

private theorem entries_record (h : db.Inv) (r : MetaRecord) :
    r ∈ db.table.primary.entries.map db.record ↔ r ∈ db.stored := by
  rw [← listed_record h, List.mem_map, List.mem_map]
  apply exists_congr
  rintro ⟨dist, v⟩
  rw [Table.mem_listed_iff, SortedMap.get?_eq_some_iff]

theorem count_eq (db : MetaDb) : db.count = .ofNat db.table.primary.size := by
  rw [count]
  split
  · next dist hlast => rw [db.table.primary.recnoOf_last hlast]
  · next hnone =>
    rw [SortedMap.lastKey?, List.getLast?_eq_none_iff] at hnone
    rw [← SortedMap.length_keys, hnone]
    rfl

/-- Whatever was stored and queried before, as long as the chunks can be numbered: the numbers from 1 to `count` are
those of all chunks that were stored, each once, with their latest records and the nearer before the farther. A greater
number finds nothing and leaves what was passed as it was, and number 0 throws. -/
theorem records_by_number {nodeId : Sha1} {es : List Event} (hr : run MetaIndex.step (create nodeId) es = some db)
    (hsize : db.table.primary.size < 2 ^ 32) :
    ∃ rs : List MetaRecord, db.count.toNat = rs.length ∧ (∀ r, r ∈ rs ↔ r ∈ db.stored) ∧
      (rs.Pairwise fun a b => a.key ^^^ db.nodeId < b.key ^^^ db.nodeId) ∧
      (∀ (i : Nat) (hi : i < rs.length) (id : Sha1) (m : Meta),
        db.fetchIndex (.ofNat (i + 1)) id m = .ok (true, rs[i].key, rs[i].value)) ∧
      (∀ (recnum : UInt32) (id : Sha1) (m : Meta), rs.length < recnum.toNat →
        db.fetchIndex recnum id m = .ok (false, id, m)) ∧
      ∀ (id : Sha1) (m : Meta), db.fetchIndex 0 id m = .error .einval := by
  have h := run_inv hr
  have hlen : (db.table.primary.entries.map db.record).length = db.table.primary.size := List.length_map _
  refine ⟨_, ?_, entries_record h, ?_, ?_, ?_, fun id m => rfl⟩
  · rw [count_eq, UInt32.toNat_ofNat', Nat.mod_eq_of_lt hsize, hlen]
  · rw [List.pairwise_map]
    simp only [record, xor_back]
    exact List.pairwise_map.mp db.table.primary.sorted
  · intro i hi id m
    have hlt : i < db.table.primary.entries.length := by rwa [List.length_map] at hi
    have hnum : (UInt32.ofNat (i + 1)).toNat = i + 1 := by
      rw [UInt32.toNat_ofNat']
      apply Nat.mod_eq_of_lt
      rw [SortedMap.size] at hsize
      omega
    have hget : db.getRecno (.ofNat (i + 1)) = .ok (some db.table.primary.entries[i]) := by
      rw [getRecno, if_neg, hnum, Nat.add_sub_cancel, List.getElem?_eq_getElem hlt]
      intro hzero
      rw [hzero] at hnum
      exact Nat.succ_ne_zero i hnum.symm
    rw [fetchIndex, hget, List.getElem_map]
    rfl
  · intro recnum id m hout
    have hget : db.getRecno recnum = .ok none := by
      rw [getRecno, if_neg, List.getElem?_eq_none]
      · rw [hlen, SortedMap.size] at hout
        omega
      · rintro rfl
        exact absurd hout (Nat.not_lt_zero _)
    rw [fetchIndex, hget]
    rfl

theorem records_by_number_three : ∃ db, run MetaIndex.step (create 1) threeChunks = some db ∧
    ∃ rs : List MetaRecord, db.count.toNat = rs.length ∧ (∀ r, r ∈ rs ↔ r ∈ db.stored) ∧ rs.length = 3 := by
  have hr : run MetaIndex.step (create 1) threeChunks = some ((run MetaIndex.step (create 1) threeChunks).get rfl) := rfl
  obtain ⟨rs, hcount, hmem, -⟩ := records_by_number hr (by decide +kernel)
  have hthree : ((run MetaIndex.step (create 1) threeChunks).get rfl).count.toNat = 3 := by decide +kernel
  exact ⟨_, hr, rs, hcount, hmem, hcount.symm.trans hthree⟩

end MetaDb

end Tornet.Chunk.MetaIndex
