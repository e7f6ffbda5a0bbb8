import Tornet.Cafs.Basic

/-! What was stored is read back: the whole chunk, and any range of it from the slices that overlap it. -/
namespace Tornet.Cafs
open Library Keystream

variable {L : Lib} {disk : Disk} {data : Bytes} {id : Sha1}

/-! ### The key stream -/

private theorem keyMemory_get (L : Lib) (seed : UInt64) {size i : Nat} (h : i < 4 * (size / 4)) :
    (keyMemory L seed size)[i]? = some (keyByte (L.mt19937 seed) i) := by
  have hlen : (generate (L.mt19937 seed) (size / 4)).length = 4 * (size / 4) := by simp [generate_eq]
  rw [keyMemory, List.getElem?_append_left (by rwa [hlen]), generate_eq, List.getElem?_map,
    List.getElem?_range h, Option.map_some]

theorem derandomize_eq (L : Lib) (seed : UInt64) (data : Bytes) (offset : Nat) :
    derandomize L seed data offset = data.mapIdx fun i x => x ^^^ keyByte (L.mt19937 seed) (offset + i) := by
  apply xorWords_memory
  intro i hi
  -- the three bytes more make room for the last, partial word
  apply keyMemory_get
  omega

@[simp] theorem length_derandomize (L : Lib) (seed : UInt64) (data : Bytes) (offset : Nat) :
    (derandomize L seed data offset).length = data.length := by
  rw [derandomize_eq, List.length_mapIdx]

/-- A range of the data with its position as the offset. -/
theorem derandomize_range (L : Lib) (seed : UInt64) (data : Bytes) (pos size : Nat) :
    derandomize L seed ((data.drop pos).take size) pos = ((derandomize L seed data 0).drop pos).take size := by
  rw [derandomize_eq, derandomize_eq]
  apply List.ext_getElem
  · simp
  · intro i h1 h2
    simp only [List.getElem_mapIdx, List.getElem_take, List.getElem_drop, Nat.zero_add]

/-! ### Slices -/

private theorem size_le_slice (data : Bytes) : min data.length MIN_SLICE_SIZE < 2 ^ 32 :=
  lt_of_le_of_lt (Nat.min_le_right _ _) (by decide)

private theorem calculateSize_sliceLoop (L : Lib) (fuel : Nat) (data : Bytes) (hf : data.length ≤ fuel) :
    calculateSize (sliceLoop L fuel data) = data.length := by
  induction fuel generalizing data with
  | zero =>
    rw [List.length_eq_zero_iff.mp (Nat.le_zero.mp hf)]
    rfl
  | succ fuel ih =>
    rw [sliceLoop]
    split_ifs with hnil
    · simp [hnil, calculateSize]
    · have hpos := List.length_pos_iff.mpr hnil
      have htake : 0 < min data.length MIN_SLICE_SIZE := lt_min hpos (by decide)
      have hrest := ih (data.drop (min data.length MIN_SLICE_SIZE)) (by rw [List.length_drop]; omega)
      rw [List.length_drop, calculateSize] at hrest
      rw [calculateSize, List.map_cons, List.sum_cons, hrest, BitVec.toNat_ofNat,
        Nat.mod_eq_of_lt (size_le_slice data)]
      omega

private theorem calculateSize_sliceChunk (L : Lib) (data : Bytes) : calculateSize (sliceChunk L data) = data.length :=
  calculateSize_sliceLoop L data.length data le_rfl

theorem readBytes_eq {n : Nat} {input : Bytes} (h : n ≤ input.length) : readBytes n input = input.take n := by
  rw [readBytes, Nat.sub_eq_zero_of_le h, List.replicate_zero, List.append_nil]

theorem toNat_pos {n : Nat} (h : n < 2 ^ 32) : (BitVec.ofNat 32 n).toNat = n := by
  rw [BitVec.toNat_ofNat, Nat.mod_eq_of_lt h]

theorem ofNat_pos_add (m n : Nat) : BitVec.ofNat 32 m + BitVec.ofNat 32 n = BitVec.ofNat 32 (m + n) :=
  (BitVec.ofNat_add m n).symm

/-- Whether the next byte lies in a slice of `s` bytes at `cpos`. -/
theorem inSlice_iff {pos cpos s : Nat} (hle : cpos ≤ pos) (hpos : pos < 2 ^ 32) (hend : cpos + s < 2 ^ 32) :
    (BitVec.ofNat 32 cpos ≤ BitVec.ofNat 32 pos ∧ BitVec.ofNat 32 pos < BitVec.ofNat 32 (cpos + s)) ↔
      pos < cpos + s := by
  rw [BitVec.le_def, BitVec.lt_def, toNat_pos hpos, toNat_pos hend, toNat_pos (hle.trans_lt hpos)]
  exact and_iff_right hle

private theorem toNat_pos_sub {pos cpos : Nat} (hle : cpos ≤ pos) (hpos : pos < 2 ^ 32) :
    (BitVec.ofNat 32 pos - BitVec.ofNat 32 cpos).toNat = pos - cpos := by
  rw [BitVec.toNat_sub_of_le, toNat_pos hpos, toNat_pos (hle.trans_lt hpos)]
  rwa [BitVec.le_def, toNat_pos hpos, toNat_pos (hle.trans_lt hpos)]

/-- The loop of `get_chunk` at a slice that begins at `cpos`, with `room` bytes still to read at `pos`. -/
theorem readSlices_eq (L : Lib) (fuel : Nat) (data : Bytes) (pos cpos room : Nat) (hf : data.length ≤ fuel)
    (hpos : cpos ≤ pos) (hroom : pos + room ≤ cpos + data.length) (hsize : cpos + data.length < 2 ^ 32) :
    readSlices L (BitVec.ofNat 32 pos) (BitVec.ofNat 32 cpos) room (sliceLoop L fuel data) data =
      some ((data.drop (pos - cpos)).take room) := by
  induction fuel generalizing data pos cpos room with
  | zero =>
    rw [List.length_eq_zero_iff.mp (Nat.le_zero.mp hf)]
    simp [sliceLoop, readSlices]
  | succ fuel ih =>
    rw [sliceLoop]
    split_ifs with hnil
    · simp [hnil, readSlices]
    · have hlen := List.length_pos_iff.mpr hnil
      generalize hs : min data.length MIN_SLICE_SIZE = s
      have hs0 : 0 < s := hs ▸ lt_min hlen (by decide)
      have hsl : s ≤ data.length := hs ▸ Nat.min_le_left _ _
      have hsn : (BitVec.ofNat 32 s).toNat = s := toNat_pos (by omega)
      have hrest : (data.drop s).length = data.length - s := List.length_drop
      simp only [readSlices, inSlice_iff (s := s) hpos (by omega) (by omega), hsn, readBytes_eq hsl, if_true,
        toNat_pos_sub hpos (by omega), ofNat_pos_add, List.length_take, Nat.min_eq_left hsl]
      split_ifs with hin hdone hzero
      · -- the range ends in this slice
        rw [Nat.min_eq_right (by omega), List.drop_take, List.take_take, Nat.min_eq_left (by omega)]
      · -- it goes on with the slice behind
        have hc : min (s - (pos - cpos)) room = s - (pos - cpos) := by omega
        rw [hc] at hdone ⊢
        rw [show pos + (s - (pos - cpos)) = cpos + s by omega,
          ih (data.drop s) (cpos + s) (cpos + s) _ (by omega) le_rfl (by omega) (by omega), Option.bind_eq_bind,
          Option.bind_some, List.drop_take, List.take_take, Nat.min_self, Nat.sub_self, List.drop_zero]
        have hsplit : data.drop s = (data.drop (pos - cpos)).drop (s - (pos - cpos)) := by
          rw [List.drop_drop, show pos - cpos + (s - (pos - cpos)) = s by omega]
        rw [hsplit, ← List.take_add, Nat.add_sub_cancel' (by omega)]
      · rw [hzero, List.take_zero]
      · rw [ih (data.drop s) pos (cpos + s) room (by omega) (by omega) (by omega) (by omega), List.drop_drop,
          show s + (pos - (cpos + s)) = pos - cpos by omega]

/-! ### Chunks on disk -/

def Holds (L : Lib) (disk : Disk) (id : Sha1) (data : Bytes) : Prop :=
  disk.files id = some (L.chunkHeaders.pack (sliceChunk L data) ++ data)

/-- `store_chunk( slice_chunk( data ), data )`. -/
def stored (L : Lib) (disk : Disk) (data : Bytes) : Sha1 × Disk := storeChunk L disk (sliceChunk L data) data

theorem stored_holds (h : (stored L disk data).2.clash = false) :
    Holds L (stored L disk data).2 (stored L disk data).1 data := by
  simp only [stored, storeChunk, Holds] at h ⊢
  split at h
  · rename_i old hold
    rw [Bool.or_eq_false_iff, decide_eq_false_iff_not, not_not] at h
    simp only [hold, h.2]
  · simp

private theorem readSlices_sliceChunk (L : Lib) (hlen : data.length < 2 ^ 32) (pos : BitVec 32) {room : Nat}
    (hin : pos.toNat + room ≤ data.length) :
    readSlices L pos 0 room (sliceChunk L data) data = some ((data.drop pos.toNat).take room) := by
  have hread := readSlices_eq L data.length data pos.toNat 0 room le_rfl (Nat.zero_le _) (by omega) (by omega)
  rwa [BitVec.ofNat_toNat, BitVec.setWidth_eq, Nat.sub_zero] at hread

/-- `get_chunk` once it is known how many bytes are read. -/
theorem getChunk_room (h : Holds L disk id data) (hlen : data.length < 2 ^ 32) {pos s : BitVec 32} {room : Nat}
    (hs : (if s = -1 then BitVec.ofNat 32 data.length else s).toNat = room) (hin : pos.toNat + room ≤ data.length) :
    getChunk L disk id pos s = some ((data.drop pos.toNat).take room) := by
  rw [getChunk, show disk.files id = _ from h]
  simp only [Option.bind_eq_bind, Option.bind_some, L.chunkHeaders.unpack_pack, calculateSize_sliceChunk, hs,
    readSlices_sliceChunk L hlen pos hin]
  rw [List.length_take, List.length_drop, Nat.min_eq_left (by omega), Nat.sub_self, List.replicate_zero,
    List.append_nil]

/-- The slices that overlap a range give the range. -/
theorem getChunk_range (h : Holds L disk id data) (hlen : data.length < 2 ^ 32) {pos s : BitVec 32}
    (hin : pos.toNat + s.toNat ≤ data.length) :
    getChunk L disk id pos s = some ((data.drop pos.toNat).take s.toNat) := by
  apply getChunk_room h hlen _ hin
  -- only a chunk of this very size has a range of the size `-1`
  split_ifs with hall
  · have hmax : s.toNat = 2 ^ 32 - 1 := by rw [hall]; rfl
    rw [toNat_pos hlen]
    omega
  · rfl

theorem getChunk_whole (h : Holds L disk id data) (hlen : data.length < 2 ^ 32) :
    getChunk L disk id 0 (-1) = some data := by
  rw [getChunk_room h hlen (by rw [if_pos rfl, toNat_pos hlen]) (by simp)]
  simp

/-- The resource, where its size and the type byte fit a `uint32_t`. -/
theorem getResource_eq (L : Lib) (disk : Disk) {r : FileRef} (hsize : r.size.toNat + 1 < 2 ^ 32) :
    getResource L disk r = (getChunk L disk r.chunk r.pos r.size).bind fun rd =>
      if rd.length < r.size.toNat then none else some (r.type :: (derandomize L r.seed rd r.pos.toNat).take r.size.toNat) := by
  have hroom : (r.size + 1).toNat = 1 + r.size.toNat := by
    rw [BitVec.toNat_add, Nat.add_comm]
    exact Nat.mod_eq_of_lt (by rw [Nat.add_comm]; exact hsize)
  rw [getResource]
  congr 1
  funext rd
  simp only [hroom, length_derandomize, List.length_replicate, lt_irrefl, or_false]
  rw [List.drop_of_length_le List.length_replicate.le, List.append_nil]

/-- The read of a range is the range of the plain read, for every chunk whose size a `uint32_t` holds, and every range that
leaves room for the type byte. -/
theorem getResource_range (L : Lib) (disk : Disk) (data : Bytes) (r : FileRef)
    (hfree : (stored L disk data).2.clash = false) (hlen : data.length < 2 ^ 32) (hsize : r.size.toNat + 1 < 2 ^ 32)
    (hchunk : r.chunk = (stored L disk data).1) (hin : r.pos.toNat + r.size.toNat ≤ data.length) :
    ∃ whole, getChunk L (stored L disk data).2 r.chunk 0 (-1) = some whole ∧
      r.pos.toNat + r.size.toNat ≤ whole.length ∧
      getResource L (stored L disk data).2 r =
        some (r.type :: ((derandomize L r.seed whole 0).drop r.pos.toNat).take r.size.toNat) := by
  have hold := stored_holds hfree
  rw [← hchunk] at hold
  refine ⟨data, getChunk_whole hold hlen, hin, ?_⟩
  rw [getResource_eq _ _ hsize, getChunk_range hold hlen hin, Option.bind_some, derandomize_range, if_neg, List.take_take,
    Nat.min_self]
  rw [List.length_take, List.length_drop, Nat.min_eq_left (by omega)]
  exact lt_irrefl _

/-- `fc::raw` for a `chunk_header`. -/
def rawChunkHeaders : Codec ChunkHeader :=
  (((Codec.word 4).pair (Codec.beWord 20)).map (fun x => Slice.mk x.1 x.2) (fun s => (s.size, s.hash)) fun _ => rfl).list

def rawUint64 : Codec UInt64 := (Codec.word 8).map UInt64.ofBitVec UInt64.toBitVec fun _ => rfl

/-- `fc::raw` for a `file_header`. -/
def rawFileHeaders : Codec FileHeader :=
  (rawUint64.pair ((Codec.beWord 20).pair rawUint64).list).map (fun x => ⟨x.1, x.2⟩)
    (fun h => (h.fileSize, h.chunks)) fun _ => rfl

/-- The type byte of an embedded file and the file. -/
def smallChunk : Bytes := [0, 116, 111, 114, 110, 101, 116]

/-- The same, randomized with `smallSeed`. -/
def smallData : Bytes := [209, 250, 5, 2, 239, 79, 240]

def smallSeed : UInt64 := 1864684565589629806

/-- The hashes and the words of the generator that an import of this file asks for. -/
def smallLib : Lib where
  sha1 bytes :=
    if bytes = smallChunk then 0x6d9b1f9ebbb0e019bef4336281c83f67529635d9
    else if bytes = smallData then 0xa0784523e12d562d3e49df53696e47668c5928d6
    else if bytes = rawChunkHeaders.pack [⟨7, 0xa0784523e12d562d3e49df53696e47668c5928d6⟩] then
      0x1a96762bc7c8827997e4d00176a30459c8d06275
    else 0
  chunkHeaders := rawChunkHeaders
  fileHeaders := rawFileHeaders
  mt19937 seed k := if seed = smallSeed then [0x706a8ed1, 0x34842a81].getD k 0 else 0
  uniform _ := true

/-- The disk once the chunk of the file is stored. -/
def smallStored : Sha1 × Disk := stored smallLib {} smallData

/-- The file in its chunk: all but the type byte, which crosses from one word to the next. -/
def smallRef : FileRef := ⟨smallStored.1, smallSeed, 1, 6, fileDataType⟩

example : smallStored.1 = 0x1a96762bc7c8827997e4d00176a30459c8d06275 := by decide +kernel
example : getResource smallLib smallStored.2 smallRef = some smallChunk := by decide +kernel

theorem getResource_range_small :
    smallStored.2.clash = false ∧ smallData.length < 2 ^ 32 ∧ smallRef.size.toNat + 1 < 2 ^ 32 ∧
      smallRef.pos.toNat + smallRef.size.toNat ≤ smallData.length ∧
      ∃ whole, getChunk smallLib smallStored.2 smallRef.chunk 0 (-1) = some whole ∧
        smallRef.pos.toNat + smallRef.size.toNat ≤ whole.length ∧
        getResource smallLib smallStored.2 smallRef = some (smallRef.type ::
          ((derandomize smallLib smallRef.seed whole 0).drop smallRef.pos.toNat).take smallRef.size.toNat) :=
  ⟨rfl, by decide, by decide, by decide,
    getResource_range smallLib {} smallData smallRef rfl (by decide) (by decide) rfl (by decide)⟩

/-! ### A chunk that is too long -/

private theorem length_readSlices (L : Lib) (head : ChunkHeader) (pos cpos : BitVec 32) (room : Nat) (input written : Bytes)
    (h : readSlices L pos cpos room head input = some written) : written.length ≤ room := by
  induction head generalizing pos cpos room input written with
  | nil =>
    obtain rfl := Option.some.inj h
    exact Nat.zero_le _
  | cons slice rest ih =>
    simp only [readSlices] at h
    split_ifs at h with hin hhash hdone hzero
    · obtain rfl := Option.some.inj h
      simp only [List.length_take]
      omega
    · obtain ⟨more, hmore, hw⟩ := Option.bind_eq_some_iff.mp h
      have := ih _ _ _ _ _ hmore
      obtain rfl := Option.some.inj hw
      simp only [List.length_append, List.length_take]
      omega
    · obtain rfl := Option.some.inj h
      exact Nat.zero_le _
    · exact ih _ _ _ _ _ h

/-- A plain read has as many bytes as the low word of the size tells. -/
theorem length_getChunk_whole (h : Holds L disk id data) {whole : Bytes}
    (hget : getChunk L disk id 0 (-1) = some whole) : whole.length = data.length % 2 ^ 32 := by
  rw [getChunk, show disk.files id = _ from h] at hget
  simp only [Option.bind_eq_bind, Option.bind_some, L.chunkHeaders.unpack_pack, calculateSize_sliceChunk, if_true,
    BitVec.toNat_ofNat] at hget
  obtain ⟨written, hread, hw⟩ := Option.bind_eq_some_iff.mp hget
  have := length_readSlices L _ _ _ _ _ _ hread
  obtain rfl := Option.some.inj hw
  rw [List.length_append, List.length_replicate]
  omega

theorem length_getResource {r : FileRef} {bytes : Bytes} (h : getResource L disk r = some bytes) :
    bytes.length = r.size.toNat + 1 := by
  obtain ⟨rd, -, hrest⟩ := Option.bind_eq_some_iff.mp h
  dsimp only at hrest
  split_ifs at hrest with hshort
  rw [List.length_replicate, BitVec.toNat_add] at hshort
  have hwrap := Nat.mod_le (r.size.toNat + (1 : BitVec 32).toNat) (2 ^ 32)
  have hone : (1 : BitVec 32).toNat = 1 := rfl
  obtain rfl := Option.some.inj hrest
  rw [List.length_append, List.length_cons, List.length_take, List.length_drop, List.length_replicate, BitVec.toNat_add]
  omega

/-- The vector for all of the largest chunk and its type byte is empty. -/
theorem getResource_full (L : Lib) (disk : Disk) {r : FileRef} (hsize : r.size = -1) : getResource L disk r = none := by
  rw [getResource, hsize]
  cases getChunk L disk r.chunk r.pos (-1) with
  | none => rfl
  | some rd => exact if_pos (.inr (by decide))

/-- A chunk of `2 ^ 32 - 1` bytes is stored, but is not read with its type byte. One of `2 ^ 32` bytes is stored, but the
plain read of it is empty. -/
theorem getResource_wraps :
    (0 + (2 ^ 32 - 1) ≤ (List.replicate (2 ^ 32 - 1) (0 : UInt8)).length ∧
      ¬ ∃ (L : Lib) (bytes : Bytes),
        getResource L (stored L {} (List.replicate (2 ^ 32 - 1) 0)).2
          ⟨(stored L {} (List.replicate (2 ^ 32 - 1) 0)).1, 0, 0, BitVec.ofNat 32 (2 ^ 32 - 1), fileDataType⟩ = some bytes) ∧
    0 + 1 ≤ (List.replicate (2 ^ 32) (0 : UInt8)).length ∧
      ¬ ∃ (L : Lib) (whole : Bytes),
        getChunk L (stored L {} (List.replicate (2 ^ 32) 0)).2 (stored L {} (List.replicate (2 ^ 32) 0)).1 0 (-1) =
          some whole ∧
        getResource L (stored L {} (List.replicate (2 ^ 32) 0)).2
            ⟨(stored L {} (List.replicate (2 ^ 32) 0)).1, 0, 0, 1, fileDataType⟩ =
          some (fileDataType :: ((derandomize L 0 whole 0).drop 0).take 1) := by
  have hless : (List.replicate (2 ^ 32 - 1) (0 : UInt8)).length = 2 ^ 32 - 1 := List.length_replicate
  generalize List.replicate (2 ^ 32 - 1) (0 : UInt8) = less at hless
  have hlen : (List.replicate (2 ^ 32) (0 : UInt8)).length = 2 ^ 32 := List.length_replicate
  generalize List.replicate (2 ^ 32) (0 : UInt8) = data at hlen
  refine ⟨⟨by rw [hless]; decide, ?_⟩, by rw [hlen]; decide, ?_⟩
  · rintro ⟨L, bytes, hget⟩
    rw [getResource_full _ _ rfl] at hget
    cases hget
  rintro ⟨L, whole, hwhole, hget⟩
  have hold : Holds L (stored L {} data).2 (stored L {} data).1 data := stored_holds rfl
  have hempty := length_getChunk_whole hold hwhole
  have htwo := length_getResource hget
  rw [hlen, Nat.mod_self] at hempty
  rw [List.length_eq_zero_iff.mp hempty] at htwo
  simp [derandomize_eq] at htwo

end Tornet.Cafs
