import Tornet.Library.Runs
import Tornet.Chunk.Service

/-! `chunk_service_connection::fetch` on several connections: the record of a chunk is read and counted
up in one call of the database, and written back in another. -/
namespace Tornet.Chunk.QueryCount
open Library Runs Cafs

/-- `meta::access_interval`. -/
def accessInterval (m : Meta) : UInt64 :=
  if m.queryCount = 0 then 0xffffffffffffffff else 1 + (m.lastUpdate - m.firstUpdate) / m.queryCount

/-- `fetch_request`. -/
structure FetchRequest where
  target : Sha1
  length : Int32
  offset : Int32
  deriving DecidableEq

/-- `fetch_response`; of the data only its size is set. -/
structure FetchResponse where
  result : Result := .unknown
  offset : UInt32 := 0
  dataSize : Nat := 0
  queryInterval : UInt64 := 0
  deriving DecidableEq

/-- The answer of `fetch` from the record it has got. -/
def response (r : FetchRequest) (m : Meta) : FetchResponse :=
  let interval := accessInterval m
  if m.size = 0 then { result := .ok, queryInterval := interval }
  else if r.length = 0 then { result := .available, queryInterval := interval }
  else if (m.size.toNat : Int) ≤ r.offset.toInt then { result := .invalidRange, queryInterval := interval }
  else
    -- the difference is an unsigned number of 32 bits
    let rest := (m.size - r.offset.toUInt32).toNat
    if r.length < 0 then { result := .available, dataSize := rest, queryInterval := interval }
    else { result := .available, dataSize := min r.length.toInt.toNat rest, queryInterval := interval }

/-- A call of `fetch` from its `fetch_meta` on: its copy of the record, and what it has returned. -/
structure Call where
  request : FetchRequest
  now : UInt64
  copy : Meta
  reply : Option FetchResponse := none
  deriving DecidableEq

/-- The cache database, and for every chunk the calls for it in the order of their `fetch_meta`. -/
structure State where
  db : ChunkDb
  calls : Sha1 → List Call := fun _ => []

/-- The two calls of the database that `fetch` makes. -/
inductive Event where
  | fetchMeta (r : FetchRequest) (now : UInt64)
  | storeMeta (target : Sha1) (i : Nat)
  deriving DecidableEq

/-- `fetch` up to its wait for `store_meta`. -/
def fetchBegin (s : State) (r : FetchRequest) (now : UInt64) : State :=
  let (found, m, db) := s.db.fetchMeta now r.target true
  let reply := if found then none else some { result := .unknownChunk }
  { db, calls := Function.update s.calls r.target (s.calls r.target ++ [⟨r, now, m, reply⟩]) }

/-- `store_meta` and the return of the `i`-th call for a chunk. -/
def fetchEnd (s : State) (target : Sha1) (i : Nat) (c : Call) : State :=
  { db := s.db.storeMeta c.request.target c.copy
    calls := Function.update s.calls target
      ((s.calls target).set i { c with reply := some (response c.request c.copy) }) }

/-- One call of the database; `none` where the call of `fetch` has returned. -/
def step (s : State) : Event → Option State
  | .fetchMeta r now => some (fetchBegin s r now)
  | .storeMeta target i =>
    match (s.calls target)[i]? with
    | some c => if c.reply = none then some (fetchEnd s target i c) else none
    | none => none

/-- Every `fetch_meta` for the chunk, and the end, finds the record as the latest call for the chunk has
left it: `k` is the number of calls for it so far, and `w` the call that has written last. -/
def orderly (t : Sha1) : Nat → Nat → List Event → Bool
  | k, w, [] => k = 0 || w + 1 = k
  | k, w, .fetchMeta r _ :: es =>
    if r.target = t then (k = 0 || w + 1 = k) && orderly t (k + 1) k es else orderly t k w es
  | k, w, .storeMeta target i :: es => if target = t then orderly t k i es else orderly t k w es

namespace State

def stored (s : State) (t : Sha1) : Option Meta := s.db.metas (t ^^^ s.db.nodeId)

/-- The record counts all calls for the chunk but the first, and has the time of the latest. -/
def Counted (s : State) (t : Sha1) : Prop :=
  ∃ (m : Meta) (c : Call), s.stored t = some m ∧ (s.calls t).getLast? = some c ∧
    m.queryCount.toNat + 1 = (s.calls t).length ∧ m.lastUpdate = c.now

/-- The copy of the latest call for the chunk counts all calls but the first. -/
def Exact (s : State) (t : Sha1) : Prop :=
  ∃ c : Call, (s.calls t).getLast? = some c ∧ c.copy.queryCount.toNat + 1 = (s.calls t).length

def Filed (s : State) : Prop := ∀ t, ∀ c ∈ s.calls t, c.request.target = t

/-- The `w`-th call for the chunk has written its record; no copy counts more than the calls before it. -/
structure Inv (s : State) (t : Sha1) (w : Nat) : Prop where
  written : ∃ c : Call, (s.calls t)[w]? = some c ∧ s.stored t = some c.copy
  bound : ∀ i (c : Call), (s.calls t)[i]? = some c → c.copy.queryCount.toNat ≤ i
  updated : ∀ c ∈ s.calls t, c.copy.lastUpdate = c.now

end State

variable {s u : State} {t : Sha1} {w : Nat}

/-- With `auto_inc` a record is always found: a new one, or the stored one counted up. -/
theorem fetchMeta_found (db : ChunkDb) (now : UInt64) (id : Sha1) :
    ∃ m : Meta, db.fetchMeta now id true = (true, m, db.storeMeta id m) ∧ m.lastUpdate = now ∧
      (db.metas (id ^^^ db.nodeId) = none → m.queryCount = 0) ∧
      ∀ old, db.metas (id ^^^ db.nodeId) = some old → m.queryCount = old.queryCount + 1 := by
  cases hm : db.metas (id ^^^ db.nodeId) with
  | none =>
    refine ⟨⟨now, now, 0, 0, ChunkDb.distanceRank (id ^^^ db.nodeId)⟩, ?_, rfl, fun _ => rfl, by simp⟩
    simp [ChunkDb.fetchMeta, hm]
  | some old =>
    refine ⟨{ old with queryCount := old.queryCount + 1, lastUpdate := now }, ?_, rfl, by simp, ?_⟩
    · simp [ChunkDb.fetchMeta, hm]
    · rintro _ ⟨⟩
      rfl

theorem stored_storeMeta (db : ChunkDb) (id t : Sha1) (m : Meta) :
    (db.storeMeta id m).metas (t ^^^ (db.storeMeta id m).nodeId) =
      if t = id then some m else db.metas (t ^^^ db.nodeId) := by
  by_cases h : t = id
  · subst h
    simp [ChunkDb.storeMeta]
  · have hne : t ^^^ db.nodeId ≠ id ^^^ db.nodeId := fun he => h ((BitVec.xor_left_inj db.nodeId).mp he)
    simp [ChunkDb.storeMeta, h, hne]

/-- What one call of the database does to the calls and the record of a chunk. -/
inductive Takes (s : State) (t : Sha1) : Event → State → Prop
  | elsewhere (e : Event) (u : State) (ho : ∀ k w es, orderly t k w (e :: es) = orderly t k w es)
      (hc : u.calls t = s.calls t) (hm : u.stored t = s.stored t) : Takes s t e u
  | counted (r : FetchRequest) (now : UInt64) (u : State) (m : Meta) (hr : r.target = t)
      (hc : u.calls t = s.calls t ++ [⟨r, now, m, none⟩]) (hm : u.stored t = some m)
      (hnow : m.lastUpdate = now) (hnew : s.stored t = none → m.queryCount = 0)
      (hold : ∀ old, s.stored t = some old → m.queryCount = old.queryCount + 1) :
      Takes s t (.fetchMeta r now) u
  | written (i : Nat) (c : Call) (u : State) (hi : (s.calls t)[i]? = some c)
      (hc : u.calls t = (s.calls t).set i { c with reply := some (response c.request c.copy) })
      (hm : u.stored t = some c.copy) : Takes s t (.storeMeta t i) u

theorem takes_of_step {e : Event} (hs : s.Filed) (h : step s e = some u) : Takes s t e u := by
  cases e with
  | fetchMeta r now =>
    obtain ⟨m, hf, hnow, hnew, hold⟩ := fetchMeta_found s.db now r.target
    have hu : u = ⟨s.db.storeMeta r.target m,
        Function.update s.calls r.target (s.calls r.target ++ [⟨r, now, m, none⟩])⟩ := by
      simp only [step, fetchBegin, hf, Option.some.injEq] at h
      exact h.symm
    subst hu
    by_cases ht : r.target = t
    · subst ht
      refine .counted r now _ m rfl (by simp) ?_ hnow hnew hold
      rw [State.stored, stored_storeMeta, if_pos rfl]
    · refine .elsewhere _ _ (fun k w es => by simp [orderly, ht]) ?_ ?_
      · exact Function.update_of_ne (Ne.symm ht) _ _
      · rw [State.stored, stored_storeMeta, if_neg (Ne.symm ht)]
        rfl
  | storeMeta target i =>
    simp only [step] at h
    split at h
    · rename_i c hi
      split_ifs at h
      cases h
      have hc : c.request.target = target := hs target c (List.mem_of_getElem? hi)
      by_cases ht : target = t
      · subst ht
        refine .written i c _ hi (by simp [fetchEnd]) ?_
        rw [State.stored, fetchEnd, stored_storeMeta, if_pos hc.symm]
      · refine .elsewhere _ _ (fun k w es => by simp [orderly, ht]) ?_ ?_
        · exact Function.update_of_ne (Ne.symm ht) _ _
        · rw [State.stored, fetchEnd, stored_storeMeta, if_neg fun he => ht (hc ▸ he.symm)]
          rfl
    · cases h

theorem filed_step {e : Event} (hs : s.Filed) (h : step s e = some u) : u.Filed := by
  intro t c hc
  cases takes_of_step (t := t) hs h with
  | elsewhere _ _ _ hcalls _ => exact hs t c (hcalls ▸ hc)
  | counted r now _ m hr hcalls _ _ _ _ =>
    rw [hcalls, List.mem_append, List.mem_singleton] at hc
    rcases hc with hc | rfl
    · exact hs t c hc
    · exact hr
  | written i c' _ hi hcalls _ =>
    rw [hcalls] at hc
    rcases List.mem_or_eq_of_mem_set hc with hc | rfl
    · exact hs t c hc
    · exact hs t c' (List.mem_of_getElem? hi)

/-- No call is forgotten. -/
theorem length_step {e : Event} (hs : s.Filed) (h : step s e = some u) :
    (s.calls t).length ≤ (u.calls t).length := by
  cases takes_of_step (t := t) hs h with
  | elsewhere _ _ _ hcalls _ => rw [hcalls]
  | counted _ _ _ _ _ hcalls _ _ _ _ => simp [hcalls]
  | written _ _ _ _ hcalls _ => simp [hcalls]

private theorem length_run {es : List Event} (hs : s.Filed) (h : run step s es = some u) :
    (s.calls t).length ≤ (u.calls t).length := by
  have hinv := invariant_of_step (fun v => v.Filed ∧ (s.calls t).length ≤ (v.calls t).length)
    (fun _ _ _ hv hstep => ⟨filed_step hv.1 hstep, hv.2.trans (length_step hv.1 hstep)⟩)
    ⟨hs, le_refl _⟩ h
  exact hinv.2

private theorem exists_last_copy {l : List Call} :
    (∃ c : Call, l.getLast? = some c ∧ c.copy.queryCount.toNat + 1 = l.length) ↔
      ∃ m : Meta, (l.map Call.copy).getLast? = some m ∧ m.queryCount.toNat + 1 = (l.map Call.copy).length := by
  simp [List.getLast?_map]

namespace State.Inv

/-- The record counts all calls exactly where the latest call has written it and counts all. -/
theorem exact_iff (h : s.Inv t w) {c : Call} (hw : (s.calls t)[w]? = some c) :
    c.copy.queryCount.toNat + 1 = (s.calls t).length ↔ s.Exact t ∧ w + 1 = (s.calls t).length := by
  have hlt : w < (s.calls t).length := (List.getElem?_eq_some_iff.mp hw).1
  have hb := h.bound w c hw
  have hlast : w + 1 = (s.calls t).length → (s.calls t).getLast? = some c := by
    intro hlen
    rw [List.getLast?_eq_getElem?, ← hlen]
    exact hw
  constructor
  · intro hq
    have hlen : w + 1 = (s.calls t).length := by omega
    exact ⟨⟨c, hlast hlen, hq⟩, hlen⟩
  · rintro ⟨⟨c', hc', hq⟩, hlen⟩
    obtain rfl : c = c' := Option.some.inj ((hlast hlen).symm.trans hc')
    exact hq

theorem counted_iff (h : s.Inv t w) : s.Counted t ↔ s.Exact t ∧ w + 1 = (s.calls t).length := by
  obtain ⟨c, hw, hm⟩ := h.written
  rw [← h.exact_iff hw]
  constructor
  · rintro ⟨m, c', hm', -, hq, -⟩
    obtain rfl : c.copy = m := Option.some.inj (hm.symm.trans hm')
    exact hq
  · intro hq
    obtain ⟨⟨c', hlast, -⟩, hlen⟩ := (h.exact_iff hw).mp hq
    have heq : c = c' := by
      rw [List.getLast?_eq_getElem?, ← hlen] at hlast
      exact Option.some.inj (hw.symm.trans hlast)
    exact ⟨c.copy, c', hm, hlast, hq, heq ▸ h.updated c (List.mem_of_getElem? hw)⟩

/-- A new call has the record of the last writer, counted up. -/
theorem counted {r : FetchRequest} {now : UInt64} {m : Meta} (h : s.Inv t w)
    (hc : u.calls t = s.calls t ++ [⟨r, now, m, none⟩]) (hm : u.stored t = some m)
    (hnow : m.lastUpdate = now) (hold : ∀ old, s.stored t = some old → m.queryCount = old.queryCount + 1) :
    u.Inv t (s.calls t).length := by
  obtain ⟨c, hw, hstored⟩ := h.written
  refine ⟨⟨⟨r, now, m, none⟩, by simp [hc], hm⟩, ?_, ?_⟩
  · intro i d hd
    rw [hc] at hd
    rcases Nat.lt_trichotomy i (s.calls t).length with hi | rfl | hi
    · rw [List.getElem?_append_left hi] at hd
      exact h.bound i d hd
    · rw [List.getElem?_concat_length, Option.some.injEq] at hd
      subst hd
      have hb := h.bound w c hw
      have hlt : w < (s.calls t).length := (List.getElem?_eq_some_iff.mp hw).1
      rw [hold c.copy hstored, UInt64.toNat_add]
      have := Nat.mod_le (c.copy.queryCount.toNat + UInt64.toNat 1) (2 ^ 64)
      simp only [UInt64.toNat_one] at this ⊢
      omega
    · rw [List.getElem?_eq_none (by simp; omega)] at hd
      cases hd
  · intro d hd
    rw [hc, List.mem_append, List.mem_singleton] at hd
    rcases hd with hd | rfl
    · exact h.updated d hd
    · exact hnow

/-- Its copy counts all calls exactly where the record did, and was the latest call's. -/
theorem exact_counted {r : FetchRequest} {now : UInt64} {m : Meta} (h : s.Inv t w)
    (hc : u.calls t = s.calls t ++ [⟨r, now, m, none⟩])
    (hold : ∀ old, s.stored t = some old → m.queryCount = old.queryCount + 1)
    (hn : (u.calls t).length ≤ 2 ^ 64) :
    u.Exact t ↔ s.Exact t ∧ w + 1 = (s.calls t).length := by
  obtain ⟨c, hw, hstored⟩ := h.written
  rw [← h.exact_iff hw]
  have hb := h.bound w c hw
  have hlt : w < (s.calls t).length := (List.getElem?_eq_some_iff.mp hw).1
  have hlen : (u.calls t).length = (s.calls t).length + 1 := by simp [hc]
  have hq : m.queryCount.toNat = c.copy.queryCount.toNat + 1 := by
    rw [hold c.copy hstored, UInt64.toNat_add, UInt64.toNat_one]
    exact Nat.mod_eq_of_lt (by omega)
  have hexact : u.Exact t ↔ m.queryCount.toNat + 1 = (u.calls t).length := by
    simp [Exact, hc]
  rw [hexact, hlen, hq]
  omega

/-- Writing a copy back changes only the writer. -/
theorem rewritten {i : Nat} {c : Call} (h : s.Inv t w) (hi : (s.calls t)[i]? = some c)
    (hc : u.calls t = (s.calls t).set i { c with reply := some (response c.request c.copy) })
    (hm : u.stored t = some c.copy) : u.Inv t i ∧ (u.Exact t ↔ s.Exact t) := by
  have hget : ∀ (j : Nat) (d : Call), (u.calls t)[j]? = some d →
      ∃ d' : Call, (s.calls t)[j]? = some d' ∧ d.copy = d'.copy ∧ d.now = d'.now := by
    intro j d hd
    rw [hc, List.getElem?_set] at hd
    split_ifs at hd with hij hlt
    · subst hij
      cases hd
      exact ⟨c, hi, rfl, rfl⟩
    · exact ⟨d, hd, rfl, rfl⟩
  have hlt : i < (s.calls t).length := (List.getElem?_eq_some_iff.mp hi).1
  refine ⟨⟨⟨{ c with reply := some (response c.request c.copy) }, by simp [hc, hlt], hm⟩, ?_, ?_⟩, ?_⟩
  · intro j d hd
    obtain ⟨d', hd', hcopy, -⟩ := hget j d hd
    rw [hcopy]
    exact h.bound j d' hd'
  · intro d hd
    obtain ⟨j, hj⟩ := List.mem_iff_getElem?.mp hd
    obtain ⟨d', hd', hcopy, hnow⟩ := hget j d hj
    rw [hcopy, hnow]
    exact h.updated d' (List.mem_of_getElem? hd')
  · have hmap : (u.calls t).map Call.copy = (s.calls t).map Call.copy := by
      rw [hc, List.map_set]
      apply List.ext_getElem?
      intro j
      rw [List.getElem?_set]
      split_ifs with hij hj
      · subst hij
        simp [hi]
      · subst hij
        simpa using hj
      · rfl
    rw [Exact, Exact, exists_last_copy, exists_last_copy, hmap]

end State.Inv

/-- From a state with a record: the calls are counted at the end exactly where the latest copy counts
all calls so far and the rest of the schedule is orderly. -/
theorem counted_iff_of_inv {es : List Event} (hf : s.Filed) (hi : s.Inv t w) (hr : run step s es = some u)
    (hn : (u.calls t).length ≤ 2 ^ 64) :
    u.Counted t ↔ s.Exact t ∧ orderly t (s.calls t).length w es = true := by
  induction es generalizing s w with
  | nil =>
    cases hr
    obtain ⟨c, hw, -⟩ := hi.written
    have hlt : w < (u.calls t).length := (List.getElem?_eq_some_iff.mp hw).1
    rw [hi.counted_iff]
    simp [orderly, show (u.calls t).length ≠ 0 by omega]
  | cons e es ih =>
    obtain ⟨v, hv, hrest⟩ := run_cons hr
    have hfv := filed_step hf hv
    have hlen : (v.calls t).length ≤ 2 ^ 64 := (length_run hfv hrest).trans hn
    cases takes_of_step (t := t) hf hv with
    | elsewhere _ _ ho hc hm =>
      have hiv : v.Inv t w := by
        obtain ⟨⟨c, hw, hst⟩, hb, hup⟩ := hi
        exact ⟨⟨c, hc ▸ hw, hm.trans hst⟩, hc ▸ hb, hc ▸ hup⟩
      rw [ih hfv hiv hrest, ho, State.Exact, State.Exact, hc]
    | counted r now _ m hr' hc hm hnow hnew hold =>
      obtain ⟨c, hw, -⟩ := hi.written
      have hlt : w < (s.calls t).length := (List.getElem?_eq_some_iff.mp hw).1
      rw [ih hfv (hi.counted hc hm hnow hold) hrest, hi.exact_counted hc hold hlen, hc]
      simp [orderly, hr', show s.calls t ≠ [] by rintro h; simp [h] at hlt, and_assoc]
    | written i c _ hget hc hm =>
      obtain ⟨hiv, hex⟩ := hi.rewritten hget hc hm
      rw [ih hfv hiv hrest, hex, hc, List.length_set]
      simp [orderly]

/-- From a state without a record or a call for the chunk. -/
theorem counted_iff_of_idle {es : List Event} (hf : s.Filed) (hnil : s.calls t = [])
    (hnone : s.stored t = none) (hr : run step s es = some u) (hpos : u.calls t ≠ [])
    (hn : (u.calls t).length ≤ 2 ^ 64) : u.Counted t ↔ orderly t 0 w es = true := by
  induction es generalizing s with
  | nil =>
    cases hr
    exact absurd hnil hpos
  | cons e es ih =>
    obtain ⟨v, hv, hrest⟩ := run_cons hr
    have hfv := filed_step hf hv
    cases takes_of_step (t := t) hf hv with
    | elsewhere _ _ ho hc hm => rw [ih hfv (hc.trans hnil) (hm.trans hnone) hrest, ho]
    | counted r now _ m hr' hc hm hnow hnew _ =>
      rw [hnil, List.nil_append] at hc
      have hzero : m.queryCount = 0 := hnew hnone
      have hiv : v.Inv t 0 := by
        refine ⟨⟨⟨r, now, m, none⟩, by simp [hc], hm⟩, ?_, ?_⟩
        · intro i d hd
          rw [hc] at hd
          obtain ⟨rfl, rfl⟩ : i = 0 ∧ d = ⟨r, now, m, none⟩ := by
            cases i with
            | zero => exact ⟨rfl, by simpa using hd.symm⟩
            | succ i => simp at hd
          simp [hzero]
        · intro d hd
          rw [hc, List.mem_singleton] at hd
          rw [hd]
          exact hnow
      have hex : v.Exact t := ⟨⟨r, now, m, none⟩, by simp [hc], by simp [hc, hzero]⟩
      rw [counted_iff_of_inv hfv hiv hrest hn, hc]
      simp [orderly, hr', hex]
    | written i c _ hget _ _ =>
      rw [hnil] at hget
      simp at hget

/-- Starting without a record, after any calls for a chunk its record has counted all of them but the
first and has the time of the latest, if and only if the schedule was orderly for the chunk and the
number fits into 64 bits. -/
theorem counted_iff_orderly {db : ChunkDb} {es : List Event} (hnone : db.metas (t ^^^ db.nodeId) = none)
    (hr : run step { db } es = some u) (hpos : u.calls t ≠ []) :
    u.Counted t ↔ (u.calls t).length ≤ 2 ^ 64 ∧ orderly t 0 0 es = true := by
  have hstart : ({ db } : State).Filed := fun _ _ hc => absurd hc List.not_mem_nil
  have hiff := counted_iff_of_idle (w := 0) hstart rfl hnone hr hpos
  constructor
  · intro h
    have hlen : (u.calls t).length ≤ 2 ^ 64 := by
      obtain ⟨m, -, -, -, hq, -⟩ := h
      have := m.queryCount.toNat_lt
      omega
    exact ⟨hlen, (hiff hlen).mp h⟩
  · rintro ⟨hlen, ho⟩
    exact (hiff hlen).mpr ho

def wholeChunk : FetchRequest := ⟨1, -1, 0⟩

/-- Two calls for it that overlap and write back in turn, and a third one. -/
def inTurn : List Event :=
  [.fetchMeta wholeChunk 3, .fetchMeta wholeChunk 8, .storeMeta 1 0, .storeMeta 1 1, .fetchMeta wholeChunk 9, .storeMeta 1 2]

/-- Two calls, of which the first one writes its copy back last. -/
def overtaken : List Event :=
  [.fetchMeta wholeChunk 3, .fetchMeta wholeChunk 8, .storeMeta 1 1, .storeMeta 1 0]

theorem counted_inTurn : ∃ u : State, run step { db := { nodeId := 0 } } inTurn = some u ∧ u.Counted 1 := by
  have hr : run step { db := { nodeId := 0 } } inTurn =
      some ((run step { db := { nodeId := 0 } } inTurn).get rfl) := rfl
  exact ⟨_, hr, (counted_iff_orderly rfl hr (by decide)).mpr ⟨by decide, by decide⟩⟩

/-- The second call is lost: both have returned, and the record says that there was one, at the time of
the first. -/
theorem lost_overtaken : ∃ u : State, run step { db := { nodeId := 0 } } overtaken = some u ∧
    (u.calls 1).length = 2 ∧ (∀ c ∈ u.calls 1, c.reply ≠ none) ∧
      (u.stored 1).map Meta.queryCount = some 0 ∧ (u.stored 1).map Meta.lastUpdate = some 3 ∧
      ¬ u.Counted 1 := by
  have hr : run step { db := { nodeId := 0 } } overtaken =
      some ((run step { db := { nodeId := 0 } } overtaken).get rfl) := rfl
  refine ⟨_, hr, rfl, by decide, rfl, rfl, ?_⟩
  rintro ⟨m, -, hm, -, hq, -⟩
  cases hm
  exact absurd hq (by decide)

end Tornet.Chunk.QueryCount
