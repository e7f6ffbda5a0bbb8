import Tornet.Cafs.ReadBack

/-! `import` of a file and `export_link` of the link it returns. -/
namespace Tornet.Cafs
open Library Keystream

variable {L : Lib} {disk disk' : Disk} {data file : Bytes} {l : Link}

/-! ### Randomized data -/

private theorem randomize_succ {fuel : Nat} {seed : UInt64} {r : Bytes × UInt64}
    (h : randomize L fuel data seed = some r) : randomize L (fuel + 1) data seed = some r := by
  induction fuel generalizing seed with
  | zero => cases h
  | succ fuel ih =>
    rw [randomize] at h ⊢
    split_ifs at h ⊢ with hrand
    · exact h
    · exact ih h

/-- More turns change nothing. -/
theorem randomize_mono {fuel fuel' : Nat} {seed : UInt64} {r : Bytes × UInt64}
    (h : randomize L fuel data seed = some r) (hle : fuel ≤ fuel') : randomize L fuel' data seed = some r := by
  induction hle with
  | refl => exact h
  | step _ ih => exact randomize_succ ih

/-- What `randomize` returns is the data combined with the stream of the seed it returns. -/
theorem randomize_some {fuel : Nat} {seed seed' : UInt64} {tmp : Bytes}
    (h : randomize L fuel data seed = some (tmp, seed')) : tmp = xorWords (L.mt19937 seed') 0 data := by
  induction fuel generalizing seed with
  | zero => cases h
  | succ fuel ih =>
    rw [randomize] at h
    split_ifs at h with hrand
    · obtain ⟨rfl, rfl⟩ := Prod.mk.inj (Option.some.inj h)
      rfl
    · exact ih h

theorem length_randomize {fuel : Nat} {seed seed' : UInt64} {tmp : Bytes}
    (h : randomize L fuel data seed = some (tmp, seed')) : tmp.length = data.length := by
  rw [randomize_some h, xorWords_eq, List.length_mapIdx]

/-- The combination undoes itself, also for a part of the data. -/
theorem derandomize_xorWords (L : Lib) (seed : UInt64) (data : Bytes) (n : Nat) :
    derandomize L seed ((xorWords (L.mt19937 seed) 0 data).take n) 0 = data.take n := by
  rw [derandomize_eq, xorWords_eq]
  apply List.ext_getElem
  · simp
  · intro i h1 h2
    simp only [List.getElem_mapIdx, List.getElem_take, Nat.mul_zero, UInt8.xor_assoc, UInt8.xor_self,
      UInt8.xor_zero]

theorem derandomize_randomize {fuel : Nat} {seed seed' : UInt64} {tmp : Bytes}
    (h : randomize L fuel data seed = some (tmp, seed')) (n : Nat) :
    derandomize L seed' (tmp.take n) 0 = data.take n := by
  rw [randomize_some h, derandomize_xorWords]

/-- The words are drawn one by one and once more for the tail, and all at once for the way back: still the data
that `randomize` ends with gives back what it was made of, and the start of it the start, wherever it is cut. -/
theorem randomize_restored (L : Lib) (fuel : Nat) (data : Bytes) (initial seed : UInt64) (tmp : Bytes)
    (h : randomize L fuel data initial = some (tmp, seed)) :
    derandomize L seed tmp 0 = data ∧ ∀ n, derandomize L seed (tmp.take n) 0 = data.take n := by
  have hpart := derandomize_randomize h
  refine ⟨?_, hpart⟩
  have hwhole := hpart tmp.length
  rwa [List.take_length, length_randomize h, List.take_length] at hwhole

/-- Seven bytes: a word and a tail of three, cut in the middle of the tail. -/
theorem randomize_restored_small :
    randomize smallLib 1 smallChunk (smallSeed - 1) = some (smallData, smallSeed) ∧
      derandomize smallLib smallSeed (smallData.take 6) 0 = smallChunk.take 6 := by
  have hrand : randomize smallLib 1 smallChunk (smallSeed - 1) = some (smallData, smallSeed) := by decide +kernel
  exact ⟨hrand, (randomize_restored smallLib 1 smallChunk (smallSeed - 1) smallSeed smallData hrand).2 6⟩

/-! ### The chunk of a link -/

/-- `get_chunk` and `derandomize`, as `export_link` begins. -/
def opened (L : Lib) (disk : Disk) (l : Link) : Option Bytes :=
  (getChunk L disk l.id 0 (-1)).map fun ch => derandomize L l.seed ch 0

theorem storeTyped_eq (L : Lib) (fuel : Nat) (disk : Disk) (data : Bytes) :
    storeTyped L fuel disk data = (randomize L fuel data (seedOf (L.sha1 data))).map fun r =>
      (⟨(stored L disk r.1).1, r.2⟩, (stored L disk r.1).2) := by
  rw [storeTyped]
  cases randomize L fuel data (seedOf (L.sha1 data)) with
  | none => rfl
  | some r => rfl

theorem storeTyped_opened {fuel : Nat} (h : storeTyped L fuel disk data = some (l, disk'))
    (hfree : disk'.clash = false) (hlen : data.length < 2 ^ 32) : opened L disk' l = some data := by
  rw [storeTyped_eq] at h
  obtain ⟨⟨tmp, seed⟩, hr, hl⟩ := Option.map_eq_some_iff.mp h
  obtain ⟨rfl, rfl⟩ := Prod.mk.inj hl
  have hlen' : tmp.length < 2 ^ 32 := (length_randomize hr).trans_lt hlen
  have hd := derandomize_randomize hr data.length
  rw [List.take_length, ← length_randomize hr, List.take_length] at hd
  rw [opened, getChunk_whole (stored_holds hfree) hlen', Option.map_some, hd]

private theorem exportLink_data (h : opened L disk l = some (fileDataType :: file)) : exportLink L disk l = some file := by
  obtain ⟨ch, hch, hd⟩ := Option.map_eq_some_iff.mp h
  rw [exportLink, hch, Option.bind_eq_bind, Option.bind_some, hd]
  rfl

private theorem exportLink_header (h : opened L disk l = some (fileHeaderType :: data)) :
    exportLink L disk l = (L.fileHeaders.unpack data).bind fun head => exportChunks L disk head.1.chunks := by
  obtain ⟨ch, hch, hd⟩ := Option.map_eq_some_iff.mp h
  rw [exportLink, hch, Option.bind_eq_bind, Option.bind_some, hd]
  rfl

theorem exportLink_nil (h : opened L disk l = some []) : exportLink L disk l = none := by
  obtain ⟨ch, hch, hd⟩ := Option.map_eq_some_iff.mp h
  rw [exportLink, hch, Option.bind_eq_bind, Option.bind_some, hd]

/-! ### The header that is cut short -/

theorem headerBuffer_cons (b : UInt8) (rest : Bytes) :
    headerBuffer (b :: rest) = fileHeaderType :: (b :: rest).dropLast := by
  simp only [headerBuffer, List.length_cons, List.cons_append, List.take_succ_cons, List.dropLast_eq_take,
    Nat.add_sub_cancel]
  congr 1
  rw [← List.cons_append, List.take_append_of_le_length (by simp)]

/-- Its last byte is lost, so it cannot be unpacked. -/
theorem exportLink_headerBuffer (hstrict : L.fileHeaders.Strict) {head : FileHeader}
    (h : opened L disk l = some (headerBuffer (L.fileHeaders.pack head))) : exportLink L disk l = none := by
  have hcut := hstrict head (L.fileHeaders.pack head).dropLast (List.dropLast_prefix _)
  generalize L.fileHeaders.pack head = packed at h hcut
  cases packed with
  | nil => exact exportLink_nil h
  | cons b rest =>
    rw [headerBuffer_cons] at h
    have hne : (b :: rest).dropLast ≠ b :: rest := by
      intro he
      have := congrArg List.length he
      simp at this
    rw [exportLink_header h, hcut hne, Option.bind_none]

theorem length_headerBuffer (packed : Bytes) : (headerBuffer packed).length = packed.length := by
  cases packed with
  | nil => rfl
  | cons b rest => simp [headerBuffer_cons]

/-! ### The chunks of a large file -/

/-- No file is lost, and a clash is remembered. -/
structure Grows (disk disk' : Disk) : Prop where
  files : ∀ id f, disk.files id = some f → disk'.files id = some f
  clash : disk'.clash = false → disk.clash = false

theorem Grows.refl (disk : Disk) : Grows disk disk := ⟨fun _ _ h => h, id⟩

theorem Grows.trans {a b c : Disk} (h : Grows a b) (h' : Grows b c) : Grows a c :=
  ⟨fun id f hf => h'.files id f (h.files id f hf), fun hc => h.clash (h'.clash hc)⟩

theorem storeChunk_grows (L : Lib) (disk : Disk) (head : ChunkHeader) (data : Bytes) :
    Grows disk (storeChunk L disk head data).2 := by
  simp only [storeChunk]
  split
  · exact ⟨fun _ _ h => h, fun h => (Bool.or_eq_false_iff.mp h).1⟩
  · rename_i hnone
    refine ⟨fun id f hf => ?_, fun h => h⟩
    have hne : id ≠ calculateId L head := by
      rintro rfl
      rw [hnone] at hf
      cases hf
    exact (Function.update_of_ne hne _ _).trans hf

theorem stored_grows (L : Lib) (disk : Disk) (data : Bytes) : Grows disk (stored L disk data).2 :=
  storeChunk_grows L disk _ data

/-- One turn of the loop in `import_file`, in terms of what it stores. -/
theorem importLoop_succ {size fuel : Nat} {r : BitVec 32} {chunk input : Bytes} {chunks : List (Sha1 × UInt64)}
    (hr : r.toNat < size) {n : Nat} (hn : min chunk.length (size - r.toNat) = n) (hin : n ≤ input.length)
    {tmp : Bytes} {seed : UInt64}
    (hrand : randomize L fuel (input.take n ++ chunk.drop n) (seedOf (L.sha1 (input.take n ++ chunk.drop n))) =
      some (tmp, seed)) :
    importLoop L size (fuel + 1) r chunk input chunks disk =
      importLoop L size fuel (r + BitVec.ofNat 32 n) (tmp.take n) (input.drop n)
        (chunks ++ [((stored L disk (tmp.take n)).1, seed)]) (stored L disk (tmp.take n)).2 := by
  rw [importLoop, if_pos hr]
  simp only [hn, Nat.min_eq_left hin, hrand, Option.bind_eq_bind, Option.bind_some]
  rfl

theorem exportChunks_cons {id : Sha1} {seed : UInt64} {chunk more : Bytes} {rest : List (Sha1 × UInt64)}
    (hold : Holds L disk id chunk) (hlen : chunk.length < 2 ^ 32) (hrest : exportChunks L disk rest = some more) :
    exportChunks L disk ((id, seed) :: rest) = some (derandomize L seed chunk 0 ++ more) := by
  rw [exportChunks, getChunk_whole hold hlen, hrest]
  rfl

/-- The loop with a part of the file still to read: it ends, and the chunks it adds are that part. The
buffer has its full size, or nothing is left. -/
theorem importLoop_exports (hrand : ∀ data seed, ∃ fuel r, randomize L fuel data seed = some r) (size : Nat)
    (hsize : size < 2 ^ 32) (left : Nat) (input chunk : Bytes) (pos : Nat) (chunks : List (Sha1 × UInt64)) (disk : Disk)
    (hleft : input.length ≤ left) (hpos : pos + input.length = size)
    (hbuf : input = [] ∨ chunk.length = MAX_CHUNK_SIZE) :
    ∃ added disk' turns, (∀ fuel ≥ turns,
        importLoop L size fuel (BitVec.ofNat 32 pos) chunk input chunks disk = some (chunks ++ added, disk')) ∧
      Grows disk disk' ∧ (disk'.clash = false → exportChunks L disk' added = some input) := by
  induction left generalizing input chunk pos chunks disk with
  | zero =>
    obtain rfl := List.length_eq_zero_iff.mp (Nat.le_zero.mp hleft)
    refine ⟨[], disk, 1, fun fuel hf => ?_, .refl disk, fun _ => rfl⟩
    obtain ⟨fuel, rfl⟩ : ∃ k, fuel = k + 1 := ⟨fuel - 1, by omega⟩
    have hend : pos = size := hpos
    rw [importLoop, if_neg (by rw [toNat_pos (by omega)]; omega), List.append_nil]
  | succ left ih =>
    rcases hbuf with rfl | hfull
    · exact ih [] chunk pos chunks disk (Nat.zero_le _) hpos (.inl rfl)
    · by_cases hnil : input = []
      · subst hnil
        exact ih [] chunk pos chunks disk (Nat.zero_le _) hpos (.inl rfl)
      · have hlen := List.length_pos_iff.mpr hnil
        have hposn : (BitVec.ofNat 32 pos).toNat = pos := toNat_pos (by omega)
        generalize hn : min chunk.length (size - (BitVec.ofNat 32 pos).toNat) = n
        have hmin : n = min MAX_CHUNK_SIZE input.length := by rw [← hn, hfull, hposn]; congr 1; omega
        have hmax : 0 < MAX_CHUNK_SIZE := by decide
        obtain ⟨turns1, ⟨tmp, seed⟩, hr⟩ := hrand (input.take n ++ chunk.drop n)
          (seedOf (L.sha1 (input.take n ++ chunk.drop n)))
        have hdrop : (input.drop n).length = input.length - n := List.length_drop
        have htmp : (tmp.take n).length = n := by
          rw [List.length_take, length_randomize hr, List.length_append, List.length_take, List.length_drop, hfull]
          omega
        have hnext : input.drop n = [] ∨ (tmp.take n).length = MAX_CHUNK_SIZE := by
          rcases Nat.le_total input.length MAX_CHUNK_SIZE with hlast | hmore
          · exact .inl (List.drop_of_length_le (by omega))
          · exact .inr (by omega)
        obtain ⟨added, disk', turns2, hloop, hgrows, hexport⟩ := ih (input.drop n) (tmp.take n) (pos + n)
          (chunks ++ [((stored L disk (tmp.take n)).1, seed)]) (stored L disk (tmp.take n)).2 (by omega) (by omega)
          hnext
        refine ⟨((stored L disk (tmp.take n)).1, seed) :: added, disk', max turns1 turns2 + 1, fun fuel hf => ?_,
          (stored_grows L disk _).trans hgrows, fun hclash => ?_⟩
        · obtain ⟨fuel, rfl⟩ : ∃ k, fuel = k + 1 := ⟨fuel - 1, by omega⟩
          rw [importLoop_succ (by omega) hn (by omega) (randomize_mono hr (by omega)), ofNat_pos_add,
            hloop fuel (by omega), List.append_assoc, List.singleton_append]
        · have hold : Holds L disk' (stored L disk (tmp.take n)).1 (tmp.take n) :=
            hgrows.files _ _ (stored_holds (hgrows.clash hclash))
          have hpart : derandomize L seed (tmp.take n) 0 = input.take n := by
            rw [derandomize_randomize hr n, List.take_left' (by rw [List.length_take]; omega)]
          rw [exportChunks_cons hold (by omega) (hexport hclash), hpart, List.take_append_drop]

/-- The chunks of a file below 4 GiB, of any number, are written back as the file. -/
theorem importFile_exports (hrand : ∀ data seed, ∃ fuel r, randomize L fuel data seed = some r) (disk : Disk)
    (hlen : file.length < 2 ^ 32) :
    ∃ head disk' turns, (∀ fuel ≥ turns, importFile L fuel disk file = some (head, disk')) ∧
      (disk'.clash = false → exportChunks L disk' head.chunks = some file) := by
  obtain ⟨chunks, disk', turns, hloop, -, hexport⟩ := importLoop_exports hrand file.length hlen file.length file
    (List.replicate MAX_CHUNK_SIZE 0) 0 [] disk le_rfl (Nat.zero_add _) (.inr List.length_replicate)
  refine ⟨⟨UInt64.ofNat file.length, chunks⟩, disk', turns, fun fuel hf => ?_, hexport⟩
  have hstart : importLoop L file.length fuel 0 (List.replicate MAX_CHUNK_SIZE 0) file [] disk =
      some (chunks, disk') := hloop fuel hf
  rw [importFile, hstart]
  rfl

/-- From 4 GiB on the counter never reaches the size of the file. -/
theorem importLoop_endless (L : Lib) {size : Nat} (hsize : 2 ^ 32 ≤ size) (fuel : Nat) (r : BitVec 32)
    (chunk input : Bytes) (chunks : List (Sha1 × UInt64)) (disk : Disk) :
    importLoop L size fuel r chunk input chunks disk = none := by
  induction fuel generalizing r chunk input chunks disk with
  | zero => rfl
  | succ fuel ih =>
    rw [importLoop, if_pos (r.isLt.trans_le hsize)]
    simp only [ih, Option.bind_eq_bind, Option.bind_fun_none]

/-! ### The round trip -/

/-- `import` returns, with this link and this disk. -/
def Imports (L : Lib) (disk : Disk) (file : Bytes) (l : Link) (disk' : Disk) : Prop :=
  ∃ turns, ∀ fuel ≥ turns, «import» L fuel disk file = some (l, disk')

theorem Imports.unique {l l' : Link} {disk₁ disk₂ : Disk} (h : Imports L disk file l disk₁)
    (h' : Imports L disk file l' disk₂) : l = l' ∧ disk₁ = disk₂ := by
  obtain ⟨turns, himport⟩ := h
  obtain ⟨turns', himport'⟩ := h'
  have hsame := himport (max turns turns') (Nat.le_max_left _ _)
  rw [himport' _ (Nat.le_max_right _ _)] at hsame
  obtain ⟨rfl, rfl⟩ := Prod.mk.inj (Option.some.inj hsame)
  exact ⟨rfl, rfl⟩

/-- The import of a small file returns. -/
theorem exists_imports (disk : Disk) (hrand : ∀ data seed, ∃ fuel r, randomize L fuel data seed = some r)
    (hsmall : file.length ≤ IMBED_THRESHOLD) : ∃ l disk', Imports L disk file l disk' := by
  obtain ⟨turns, r, hr⟩ := hrand (fileDataType :: file) (seedOf (L.sha1 (fileDataType :: file)))
  refine ⟨⟨(stored L disk r.1).1, r.2⟩, (stored L disk r.1).2, turns, fun fuel hf => ?_⟩
  rw [«import», if_neg (by omega), storeTyped_eq, randomize_mono hr hf, Option.map_some]

/-- The chunk it is embedded in gives it back. -/
theorem exportLink_small {fuel : Nat} (himport : «import» L fuel disk file = some (l, disk'))
    (hfree : disk'.clash = false) (hsmall : file.length ≤ IMBED_THRESHOLD) : exportLink L disk' l = some file := by
  rw [«import», if_neg (by omega)] at himport
  apply exportLink_data
  apply storeTyped_opened himport hfree
  have : IMBED_THRESHOLD + 1 < 2 ^ 32 := by decide
  rw [List.length_cons]
  omega

/-- A larger file leaves a header that `export_link` cannot read. -/
theorem exportLink_large (hstrict : L.fileHeaders.Strict) {fuel : Nat}
    (himport : «import» L fuel disk file = some (l, disk')) (hfree : disk'.clash = false)
    (hlarge : IMBED_THRESHOLD < file.length) : exportLink L disk' l = none := by
  rw [«import», if_pos hlarge] at himport
  obtain ⟨⟨head, disk1⟩, -, hrest⟩ := Option.bind_eq_some_iff.mp himport
  dsimp only at hrest
  split_ifs at hrest with hfits
  apply exportLink_headerBuffer hstrict
  apply storeTyped_opened hrest hfree
  rw [length_headerBuffer]
  exact hfits.trans_lt (by decide)

/-- A file comes back from the store exactly if it is embedded in a chunk. -/
theorem import_export_iff (L : Lib) (disk : Disk) (file : Bytes) (hstrict : L.fileHeaders.Strict)
    (hrand : ∀ data seed, ∃ fuel r, randomize L fuel data seed = some r)
    (hfree : ∀ l disk', Imports L disk file l disk' → disk'.clash = false) :
    (∃ l disk', Imports L disk file l disk' ∧ exportLink L disk' l = some file) ↔
      file.length ≤ IMBED_THRESHOLD := by
  constructor
  · rintro ⟨l, disk', hi, hexport⟩
    by_contra hlarge
    obtain ⟨turns, himport⟩ := id hi
    rw [exportLink_large hstrict (himport turns le_rfl) (hfree l disk' hi) (by omega)] at hexport
    cases hexport
  · intro hsmall
    obtain ⟨l, disk', hi⟩ := exists_imports disk hrand hsmall
    obtain ⟨turns, himport⟩ := id hi
    exact ⟨l, disk', hi, exportLink_small (himport turns le_rfl) (hfree l disk' hi) hsmall⟩

theorem rawFileHeaders_strict : rawFileHeaders.Strict := by
  have uint64 : rawUint64.Strict := (Codec.word_strict 8).map fun _ => rfl
  apply Codec.Strict.map
  apply uint64.pair
  apply Codec.Strict.list
  exact (Codec.beWord_strict 20).pair uint64

/-- Every data is random. -/
theorem randomize_uniform (hu : ∀ data, L.uniform data = true) (fuel : Nat) (data : Bytes) (seed : UInt64) :
    randomize L (fuel + 1) data seed = some (xorWords (L.mt19937 (seed + 1)) 0 data, seed + 1) := by
  rw [randomize, if_pos (by rw [isRandom, hu, Bool.or_true])]

theorem import_export_iff_small :
    rawFileHeaders.Strict ∧ (∀ data seed, ∃ fuel r, randomize smallLib fuel data seed = some r) ∧
      (∀ l disk', Imports smallLib {} smallChunk.tail l disk' → disk'.clash = false) ∧
      ∃ l disk', Imports smallLib {} smallChunk.tail l disk' ∧ exportLink smallLib disk' l = some smallChunk.tail := by
  have hrand (data : Bytes) (seed : UInt64) : ∃ fuel r, randomize smallLib fuel data seed = some r :=
    ⟨1, _, randomize_uniform (fun _ => rfl) 0 data seed⟩
  have hfree (l : Link) (disk' : Disk) (h : Imports smallLib {} smallChunk.tail l disk') : disk'.clash = false := by
    obtain ⟨turns, himport⟩ := h
    have hi := himport (turns + 1) (by omega)
    rw [«import», if_neg (by decide), storeTyped_eq, randomize_uniform fun _ => rfl] at hi
    obtain ⟨-, rfl⟩ := Prod.mk.inj (Option.some.inj hi)
    rfl
  exact ⟨rawFileHeaders_strict, hrand, hfree,
    (import_export_iff smallLib {} smallChunk.tail rawFileHeaders_strict hrand hfree).mpr (by decide)⟩

/-! ### A file that is not written back -/

theorem length_sliceLoop (L : Lib) (fuel : Nat) (data : Bytes) (hf : data.length ≤ fuel) :
    (sliceLoop L fuel data).length = (data.length + (MIN_SLICE_SIZE - 1)) / MIN_SLICE_SIZE := by
  have hslice : MIN_SLICE_SIZE = 65536 := rfl
  induction fuel generalizing data with
  | zero =>
    rw [List.length_eq_zero_iff.mp (Nat.le_zero.mp hf)]
    rfl
  | succ fuel ih =>
    rw [sliceLoop]
    split_ifs with hnil
    · rw [hnil]
      rfl
    · have hpos := List.length_pos_iff.mpr hnil
      have hdrop : (data.drop (min data.length MIN_SLICE_SIZE)).length = data.length - min data.length MIN_SLICE_SIZE :=
        List.length_drop
      rw [List.length_cons, ih _ (by omega), hdrop, hslice]
      omega

theorem length_rawChunkHeaders (head : ChunkHeader) :
    (rawChunkHeaders.pack head).length = (Varint.encode head.length).length + 24 * head.length := by
  have hslice (s : Slice) : ((Codec.word 4).pack s.size ++ (Codec.beWord 20).pack s.hash).length = 24 := by
    simp [Codec.word, Codec.beWord, Codec.fixed, Codec.length_leBytes]
  simp only [rawChunkHeaders, Codec.list, Codec.map, Codec.pair, Codec.varint, List.length_append, List.length_flatMap]
    at hslice ⊢
  simp [hslice, Nat.mul_comm]

theorem length_rawFileHeaders (head : FileHeader) :
    (rawFileHeaders.pack head).length = 8 + (Varint.encode head.chunks.length).length + 28 * head.chunks.length := by
  simp [rawFileHeaders, rawUint64, Codec.list, Codec.map, Codec.pair, Codec.varint, Codec.word, Codec.beWord,
    Codec.fixed, Codec.length_leBytes, Nat.add_assoc, Nat.mul_comm]

/-- A library whose hash tells a header with one slice from one with more. -/
def sliceLib : Lib := { smallLib with sha1 := fun bytes => if bytes.length = 25 then 1 else 0 }

private theorem calculateId_one (hpos : 0 < data.length) (hlen : data.length ≤ MIN_SLICE_SIZE) :
    calculateId sliceLib (sliceChunk sliceLib data) = 1 := by
  have hslice : MIN_SLICE_SIZE = 65536 := rfl
  have hcount : (sliceChunk sliceLib data).length = 1 := by
    rw [sliceChunk, length_sliceLoop _ _ _ le_rfl, hslice]
    omega
  have hone : (Varint.encode 1).length = 1 := by decide
  exact if_pos (by rw [show sliceLib.chunkHeaders = rawChunkHeaders from rfl, length_rawChunkHeaders, hcount, hone])

private theorem calculateId_more (hlen : MIN_SLICE_SIZE < data.length) :
    calculateId sliceLib (sliceChunk sliceLib data) = 0 := by
  have hslice : MIN_SLICE_SIZE = 65536 := rfl
  have hcount : 2 ≤ (sliceChunk sliceLib data).length := by
    rw [sliceChunk, length_sliceLoop _ _ _ le_rfl, hslice]
    omega
  apply if_neg
  rw [show sliceLib.chunkHeaders = rawChunkHeaders from rfl, length_rawChunkHeaders]
  omega

/-- The turn that reads the last part of a file, where every data is random. -/
theorem importLoop_last (hu : ∀ data, L.uniform data = true) (size pos : Nat) (chunk input : Bytes)
    (chunks : List (Sha1 × UInt64)) (disk : Disk) (hsize : size < 2 ^ 32) (hpos : pos + input.length = size)
    (hne : 0 < input.length) (hfits : input.length ≤ chunk.length) :
    ∃ data seed, data.length = input.length ∧ ∀ fuel,
      importLoop L size (fuel + 2) (BitVec.ofNat 32 pos) chunk input chunks disk =
        some (chunks ++ [((stored L disk data).1, seed)], (stored L disk data).2) := by
  have hposn : (BitVec.ofNat 32 pos).toNat = pos := toNat_pos (by omega)
  have hn : min chunk.length (size - (BitVec.ofNat 32 pos).toNat) = input.length := by omega
  obtain ⟨tmp, seed, hturn⟩ : ∃ tmp seed, ∀ fuel, randomize L (fuel + 1)
      (input.take input.length ++ chunk.drop input.length)
      (seedOf (L.sha1 (input.take input.length ++ chunk.drop input.length))) = some (tmp, seed) :=
    ⟨_, _, fun fuel => randomize_uniform hu fuel _ _⟩
  have hend : ¬ (BitVec.ofNat 32 (pos + input.length)).toNat < size := by
    rw [hpos, toNat_pos hsize]
    exact Nat.lt_irrefl _
  refine ⟨tmp.take input.length, seed, ?_, fun fuel => ?_⟩
  · rw [List.length_take, length_randomize (hturn 0), List.length_append, List.length_take]
    omega
  · rw [importLoop_succ (by omega) hn le_rfl (hturn fuel), ofNat_pos_add, importLoop, if_neg hend]

/-- A file that fits one chunk, where every data is random. -/
theorem importFile_single (hu : ∀ data, L.uniform data = true) (disk : Disk) (hpos : 0 < file.length)
    (hfits : file.length ≤ MAX_CHUNK_SIZE) :
    ∃ chunk seed, chunk.length = file.length ∧ ∀ fuel, importFile L (fuel + 2) disk file =
      some (⟨UInt64.ofNat file.length, [((stored L disk chunk).1, seed)]⟩, (stored L disk chunk).2) := by
  have hmax : MAX_CHUNK_SIZE < 2 ^ 32 := by decide
  obtain ⟨chunk, seed, hlen, hloop⟩ := importLoop_last hu file.length 0 (List.replicate MAX_CHUNK_SIZE 0) file [] disk
    (hfits.trans_lt hmax) (Nat.zero_add _) hpos (by rwa [List.length_replicate])
  refine ⟨chunk, seed, hlen, fun fuel => ?_⟩
  rw [importFile]
  exact congrArg (Option.bind · _) (hloop fuel)

theorem stored_clash (hnone : disk.files (calculateId L (sliceChunk L data)) = none) :
    (stored L disk data).2.clash = disk.clash := by
  rw [stored, storeChunk]
  simp only [hnone]

/-- The chunk of the file and the chunk of its header get different names. -/
theorem import_sliceLib (hlarge : IMBED_THRESHOLD < file.length) (hfits : file.length ≤ MAX_CHUNK_SIZE) :
    ∃ l disk', disk'.clash = false ∧ ∀ fuel, «import» sliceLib (fuel + 2) {} file = some (l, disk') := by
  have hslice : MIN_SLICE_SIZE < IMBED_THRESHOLD := by decide
  obtain ⟨chunk, seed, hlen, hfile⟩ := importFile_single (L := sliceLib) (fun _ => rfl) {} (by omega) hfits
  have hpacked : (rawFileHeaders.pack ⟨UInt64.ofNat file.length, [((stored sliceLib {} chunk).1, seed)]⟩).length = 37 := by
    have hone : (Varint.encode 1).length = 1 := by decide
    rw [length_rawFileHeaders, List.length_singleton, hone]
  have himport (fuel : Nat) : «import» sliceLib (fuel + 2) {} file =
      storeTyped sliceLib (fuel + 2) (stored sliceLib {} chunk).2
        (headerBuffer (rawFileHeaders.pack ⟨UInt64.ofNat file.length, [((stored sliceLib {} chunk).1, seed)]⟩)) := by
    rw [«import», if_pos hlarge, hfile, Option.bind_eq_bind, Option.bind_some]
    exact if_pos (hpacked.trans_le (by decide))
  generalize rawFileHeaders.pack ⟨UInt64.ofNat file.length, [((stored sliceLib {} chunk).1, seed)]⟩ = packed
    at hpacked himport
  obtain ⟨tmp, seed', hr⟩ : ∃ tmp seed', ∀ fuel, randomize sliceLib (fuel + 1) (headerBuffer packed)
      (seedOf (sliceLib.sha1 (headerBuffer packed))) = some (tmp, seed') :=
    ⟨_, _, fun fuel => randomize_uniform (fun _ => rfl) fuel _ _⟩
  have htmp : tmp.length = 37 := by rw [length_randomize (hr 0), length_headerBuffer, hpacked]
  refine ⟨⟨(stored sliceLib (stored sliceLib {} chunk).2 tmp).1, seed'⟩,
    (stored sliceLib (stored sliceLib {} chunk).2 tmp).2, ?_, fun fuel => ?_⟩
  · apply stored_clash
    rw [calculateId_one (by omega) (by rw [htmp]; decide), stored, storeChunk]
    exact Function.update_of_ne (by rw [calculateId_more (by omega)]; decide) _ _
  · rw [himport, storeTyped_eq, hr (fuel + 1), Option.map_some]

/-- A file of one byte more than is embedded: `import` returns, and `export_link` of its link writes no file. -/
theorem import_unreadable :
    sliceLib.fileHeaders.Strict ∧ (∀ data seed, ∃ fuel r, randomize sliceLib fuel data seed = some r) ∧
      (∃ l disk', Imports sliceLib {} (List.replicate (IMBED_THRESHOLD + 1) 0) l disk') ∧
      (∀ l disk', Imports sliceLib {} (List.replicate (IMBED_THRESHOLD + 1) 0) l disk' → disk'.clash = false) ∧
      ¬ ∃ l disk', Imports sliceLib {} (List.replicate (IMBED_THRESHOLD + 1) 0) l disk' ∧
        exportLink sliceLib disk' l = some (List.replicate (IMBED_THRESHOLD + 1) 0) := by
  have hlen : (List.replicate (IMBED_THRESHOLD + 1) (0 : UInt8)).length = IMBED_THRESHOLD + 1 := List.length_replicate
  generalize List.replicate (IMBED_THRESHOLD + 1) (0 : UInt8) = file at hlen
  have hfits : IMBED_THRESHOLD + 1 ≤ MAX_CHUNK_SIZE := by decide
  obtain ⟨l, disk', hclash, himport⟩ := import_sliceLib (show IMBED_THRESHOLD < file.length by omega) (by omega)
  have hi : Imports sliceLib {} file l disk' := by
    refine ⟨2, fun fuel hf => ?_⟩
    obtain ⟨k, rfl⟩ : ∃ k, fuel = k + 2 := ⟨fuel - 2, by omega⟩
    exact himport k
  refine ⟨rawFileHeaders_strict, fun data seed => ⟨1, _, randomize_uniform (fun _ => rfl) 0 data seed⟩, ⟨l, disk', hi⟩,
    fun l2 disk2 hi2 => ?_, ?_⟩
  · obtain ⟨rfl, rfl⟩ := hi.unique hi2
    exact hclash
  · rintro ⟨l2, disk2, hi2, hexport⟩
    obtain ⟨rfl, rfl⟩ := hi.unique hi2
    rw [exportLink_large rawFileHeaders_strict (himport 0) hclash (by omega)] at hexport
    cases hexport

end Tornet.Cafs
