import Tornet.Cafs.ReadBack
import Tornet.Chunk.Service

/-! Under which id a chunk is known. `cafs` hashes the header of a chunk, the peers and the download
hash its data. -/
namespace Tornet.Chunk
open Library Cafs

section
variable {db : ChunkDb} {now : UInt64} {id id' : Sha1}

/-- Recording changes the record of the id. -/
theorem recorded_self (db : ChunkDb) (now : UInt64) (id : Sha1) :
    (db.recorded now id).metas (id ^^^ db.nodeId) ≠ db.metas (id ^^^ db.nodeId) := by
  unfold ChunkDb.recorded ChunkDb.fetchMeta
  split
  · rename_i hnone
    rw [hnone]
    simp [ChunkDb.storeMeta]
  · rename_i m hsome
    rw [hsome]
    intro h
    simp only [ChunkDb.storeMeta, if_true, Function.update_self, Option.some.injEq] at h
    have hq : m.queryCount + 1 = m.queryCount := congrArg Meta.queryCount h
    simp at hq

/-- It changes no other. -/
theorem recorded_other (hne : id' ≠ id) :
    (db.recorded now id).metas (id' ^^^ db.nodeId) = db.metas (id' ^^^ db.nodeId) := by
  have hdist : id' ^^^ db.nodeId ≠ id ^^^ db.nodeId := fun h => hne ((BitVec.xor_left_inj _).mp h)
  unfold ChunkDb.recorded ChunkDb.fetchMeta
  split <;> simp [ChunkDb.storeMeta, Function.update_of_ne hdist]

private theorem recorded_ne : db.recorded now id ≠ db := by
  intro h
  exact recorded_self db now id (by rw [h])

theorem recorded_inj (h : db.recorded now id = db.recorded now id') : id = id' := by
  by_contra hne
  apply recorded_self db now id
  rw [h, recorded_other hne]

end

/-- Every push of the chunk to a peer leaves the record of its id there. -/
def PublishAgrees (L : Lib) (disk : Disk) (id : Sha1) : Prop :=
  ∀ now r hosting near peers node, hosting.length < r.desiredHostCount.toNat → storeOnNode hosting near = some node →
    ∃ r', publishStep L disk now id r hosting near peers =
      some (r', Function.update peers node ((peers node).recorded now id))

/-- Where the chunk is not at hand, the first host that answers with its data settles the download. -/
def DownloadAgrees (L : Lib) (id : Sha1) (data : Bytes) : Prop :=
  ∀ disk before after, fetchChunk L disk id = none →
    (∀ a ∈ before, a = .failed ∨ ∃ other, a = .reply other ∧ L.sha1 other ≠ id) →
    downloadChunk L disk id (before ++ .reply data :: after) = .returned data

section
variable {L : Lib} {id : Sha1} {data : Bytes}

private theorem askHosts_append {before : List Answer}
    (h : ∀ a ∈ before, a = .failed ∨ ∃ other, a = .reply other ∧ L.sha1 other ≠ id) (rest : List Answer) :
    askHosts L id (before ++ rest) = askHosts L id rest := by
  induction before with
  | nil => rfl
  | cons a before ih =>
    have hrest := ih fun x hx => h x (List.mem_cons_of_mem a hx)
    rcases h a List.mem_cons_self with rfl | ⟨other, rfl, hne⟩
    · exact hrest
    · rw [List.cons_append, askHosts, if_neg hne, hrest]

theorem downloadAgrees_iff : DownloadAgrees L id data ↔ L.sha1 data = id := by
  constructor
  · intro h
    have hnone : fetchChunk L {} id = none := rfl
    have hone := h {} [] [] hnone (fun _ ha => absurd ha List.not_mem_nil)
    rw [downloadChunk, hnone] at hone
    by_contra hne
    rw [List.nil_append, askHosts, if_neg hne] at hone
    cases hone
  · intro hid disk before after hnone hbefore
    rw [downloadChunk, hnone]
    show askHosts L id _ = _
    rw [askHosts_append hbefore, askHosts, if_pos hid]

/-- A peer records a chunk under an id exactly if it accepts the data and the data hashes to the id. -/
theorem store_recorded_iff {now : UInt64} {db : ChunkDb} : (store L now db data).2 = db.recorded now id ↔
    isRandom L data = true ∧ data.length ≤ 1024 * 1024 ∧ L.sha1 data = id := by
  rw [store]
  split_ifs with hrand hsize
  · simp only [hrand, Bool.false_eq_true, false_and, iff_false]
    exact fun h => recorded_ne h.symm
  · refine ⟨fun h => absurd h.symm recorded_ne, fun h => absurd h.2.1 (by omega)⟩
  · refine ⟨fun h => ⟨by simpa using hrand, by omega, recorded_inj h⟩, fun h => ?_⟩
    rw [h.2.2]

theorem publishStep_push {disk : Disk} (hfetch : fetchChunk L disk id = some data) (now : UInt64) (r : PublishRecord)
    (hosting near : List (Sha1 × Sha1)) (peers : Sha1 → ChunkDb) (node : Sha1)
    (hlow : hosting.length < r.desiredHostCount.toNat) (hnode : storeOnNode hosting near = some node) :
    ∃ r', publishStep L disk now id r hosting near peers =
      some (r', Function.update peers node (store L now (peers node) data).2) := by
  rw [publishStep]
  rw [if_pos hlow, hnode, hfetch]
  exact ⟨_, rfl⟩

theorem publishAgrees_iff {disk : Disk} (hfetch : fetchChunk L disk id = some data) :
    PublishAgrees L disk id ↔ isRandom L data = true ∧ data.length ≤ 1024 * 1024 ∧ L.sha1 data = id := by
  constructor
  · intro h
    -- a chunk nobody hosts, and one peer without records
    have hpush := publishStep_push hfetch 0 { desiredHostCount := 1 } [] [(0, 0)] (fun _ => ⟨0, fun _ => none⟩) 0
      (by decide) rfl
    obtain ⟨r₁, h₁⟩ := hpush
    obtain ⟨r₂, h₂⟩ := h 0 { desiredHostCount := 1 } [] [(0, 0)] (fun _ => ⟨0, fun _ => none⟩) 0 (by decide) rfl
    have heq := congrFun (Prod.mk.inj (Option.some.inj (h₁.symm.trans h₂))).2 0
    rw [Function.update_self, Function.update_self] at heq
    exact store_recorded_iff.mp heq
  · intro h now r hosting near peers node hlow hnode
    obtain ⟨r', hr'⟩ := publishStep_push hfetch now r hosting near peers node hlow hnode
    exact ⟨r', by rw [hr', store_recorded_iff.mpr h]⟩

end

/-- A chunk that `cafs` has stored is known to its peers and to a download under the same id exactly if
its data is random, no longer than a peer accepts, and its own packed header; where `sha1` has no
collision between the data and the header. -/
theorem identity_iff (L : Lib) (disk : Disk) (data : Bytes) (hclash : (stored L disk data).2.clash = false)
    (hlen : data.length < 2 ^ 32)
    (hsha : L.sha1 data = L.sha1 (L.chunkHeaders.pack (sliceChunk L data)) →
      data = L.chunkHeaders.pack (sliceChunk L data)) :
    (PublishAgrees L (stored L disk data).2 (stored L disk data).1 ∧ DownloadAgrees L (stored L disk data).1 data) ↔
      isRandom L data = true ∧ data.length ≤ 1024 * 1024 ∧ data = L.chunkHeaders.pack (sliceChunk L data) := by
  have hid : (stored L disk data).1 = L.sha1 (L.chunkHeaders.pack (sliceChunk L data)) := by
    simp only [stored, storeChunk]
    split <;> rfl
  have hfetch : fetchChunk L (stored L disk data).2 (stored L disk data).1 = some data :=
    getChunk_whole (stored_holds hclash) hlen
  rw [publishAgrees_iff hfetch, downloadAgrees_iff, hid]
  constructor
  · rintro ⟨⟨hrand, hsize, heq⟩, -⟩
    exact ⟨hrand, hsize, hsha heq⟩
  · rintro ⟨hrand, hsize, hown⟩
    have heq := congrArg L.sha1 hown
    exact ⟨⟨hrand, hsize, heq⟩, heq⟩

def ownHeader : Bytes := rawChunkHeaders.pack [⟨25, 7⟩]

def ownLib : Lib := { smallLib with sha1 := fun bytes => if bytes = ownHeader then 7 else 0 }

theorem identity_iff_small :
    (PublishAgrees ownLib (stored ownLib {} ownHeader).2 (stored ownLib {} ownHeader).1 ∧
      DownloadAgrees ownLib (stored ownLib {} ownHeader).1 ownHeader) ∧
    ¬ (PublishAgrees smallLib smallStored.2 smallStored.1 ∧ DownloadAgrees smallLib smallStored.1 smallData) := by
  have hsha : smallLib.sha1 smallData ≠ smallLib.sha1 (smallLib.chunkHeaders.pack (sliceChunk smallLib smallData)) := by
    decide +kernel
  have hown : ownHeader = ownLib.chunkHeaders.pack (sliceChunk ownLib ownHeader) := by decide +kernel
  constructor
  · exact (identity_iff ownLib {} ownHeader rfl (by decide +kernel) fun _ => hown).mpr ⟨rfl, by decide +kernel, hown⟩
  · intro hagree
    have hsame := ((identity_iff smallLib {} smallData rfl (by decide) fun heq => absurd heq hsha).mp hagree).2.2
    exact hsha (congrArg smallLib.sha1 hsame)

/-- The chunk of an embedded file of six bytes: a peer records it under another id, and its data is
refused as an answer for it. -/
theorem identity_differs : fetchChunk smallLib smallStored.2 smallStored.1 = some smallData ∧
    ¬ PublishAgrees smallLib smallStored.2 smallStored.1 ∧ ¬ DownloadAgrees smallLib smallStored.1 smallData ∧
    (store smallLib 0 ⟨0, fun _ => none⟩ smallData).2.metas smallStored.1 = none ∧
    downloadChunk smallLib {} smallStored.1 [.reply smallData] = .noValue := by
  have hsha : smallLib.sha1 smallData ≠ smallStored.1 := by decide +kernel
  have hfetch : fetchChunk smallLib smallStored.2 smallStored.1 = some smallData := by decide +kernel
  refine ⟨hfetch, fun h => hsha ((publishAgrees_iff hfetch).mp h).2.2, fun h => hsha (downloadAgrees_iff.mp h), ?_, ?_⟩
  · decide +kernel
  · decide +kernel

end Tornet.Chunk
