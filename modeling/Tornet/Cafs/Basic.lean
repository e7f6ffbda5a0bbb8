import Mathlib.Logic.Function.Basic
import Tornet.Library.Codec
import Tornet.Library.Keystream
import Tornet.Peer

/-! `cafs`: files as chunks under the hash of their header. Chunks are made of slices, and their data is
combined with a key stream until it looks random. -/
namespace Tornet.Cafs
open Library Keystream

def MAX_CHUNK_SIZE : Nat := 1024 * 1024 * 4
def MIN_SLICE_SIZE : Nat := 1024 * 64
def IMBED_THRESHOLD : Nat := 1024 * 1024
def RAND_THRESHOLD : Nat := 1024 * 4

/-- `cafs::file_type`. -/
def fileDataType : UInt8 := 0
def directoryType : UInt8 := 1
def fileHeaderType : UInt8 := 2

/-- `chunk_header::slice`. -/
structure Slice where
  size : BitVec 32
  hash : Sha1
  deriving DecidableEq, Repr

/-- `chunk_header`. -/
abbrev ChunkHeader := List Slice

/-- `file_header`; its `type` is neither set nor packed. -/
structure FileHeader where
  fileSize : UInt64
  chunks : List (Sha1 × UInt64)
  deriving DecidableEq, Repr

structure Link where
  id : Sha1
  seed : UInt64
  deriving DecidableEq, Repr

/-- `file_ref`; `content` is read by the file database only. -/
structure FileRef where
  chunk : Sha1
  seed : UInt64
  pos : BitVec 32
  size : BitVec 32
  type : UInt8
  deriving DecidableEq, Repr

/-- What comes from outside: the hash, `fc::raw`, the words of `boost::mt19937` for a seed, and
the chi-square test of `is_random`. -/
structure Lib where
  sha1 : Bytes → Sha1
  chunkHeaders : Codec ChunkHeader
  fileHeaders : Codec FileHeader
  mt19937 : UInt64 → Nat → BitVec 32
  uniform : Bytes → Bool

/-- The chunk files by id. `clash` is a history variable: a store was skipped although the file there
was another one. -/
structure Disk where
  files : Sha1 → Option Bytes := fun _ => none
  clash : Bool := false

/-- The first eight bytes of a hash as a little-endian word. -/
def seedOf (h : Sha1) : UInt64 :=
  UInt64.ofNat (((List.range 8).map fun i => h.toNat / 256 ^ (19 - i) % 256 * 256 ^ i).sum)

/-- `is_random`. -/
def isRandom (L : Lib) (data : Bytes) : Bool := data.length < RAND_THRESHOLD || L.uniform data

/-- `randomize`; the fuel bounds the number of seeds tried. -/
def randomize (L : Lib) : Nat → Bytes → UInt64 → Option (Bytes × UInt64)
  | 0, _, _ => none
  | fuel + 1, data, seed =>
    let seed := seed + 1
    let tmp := xorWords (L.mt19937 seed) 0 data
    if isRandom L tmp then some (tmp, seed) else randomize L fuel data seed

/-- The buffer of `derandomize`: whole words as far as they fit, then zeros. -/
def keyMemory (L : Lib) (seed : UInt64) (size : Nat) : List UInt8 :=
  let words := generate (L.mt19937 seed) (size / 4)
  words ++ List.replicate (size - words.length) 0

/-- `derandomize`, whose words are read from the middle of the buffer. -/
def derandomize (L : Lib) (seed : UInt64) (data : Bytes) (offset : Nat) : Bytes :=
  let tmp := keyMemory L seed (data.length + offset + 3)
  xorWords (fun k => wordOf (tmp.drop (offset + 4 * k))) 0 data

/-- The loop of `slice_chunk`; each turn takes at least one byte. -/
def sliceLoop (L : Lib) : Nat → Bytes → ChunkHeader
  | 0, _ => []
  | fuel + 1, data =>
    if data = [] then []
    else
      let s := min data.length MIN_SLICE_SIZE
      ⟨BitVec.ofNat 32 s, L.sha1 (data.take s)⟩ :: sliceLoop L fuel (data.drop s)

def sliceChunk (L : Lib) (data : Bytes) : ChunkHeader := sliceLoop L data.length data

/-- `chunk_header::calculate_id`. -/
def calculateId (L : Lib) (head : ChunkHeader) : Sha1 := L.sha1 (L.chunkHeaders.pack head)

/-- `chunk_header::calculate_size`. -/
def calculateSize (head : ChunkHeader) : Nat := (head.map fun s => s.size.toNat).sum

/-- `store_chunk`: a file that exists is left as it is. -/
def storeChunk (L : Lib) (disk : Disk) (head : ChunkHeader) (data : Bytes) : Sha1 × Disk :=
  let h := calculateId L head
  let file := L.chunkHeaders.pack head ++ data
  match disk.files h with
  | some old => (h, { disk with clash := disk.clash || decide (old ≠ file) })
  | none => (h, { disk with files := Function.update disk.files h (some file) })

/-- `ifstream::read` into a fresh buffer. -/
def readBytes (n : Nat) (input : Bytes) : Bytes := input.take n ++ List.replicate (n - input.length) 0

/-- The loop of `get_chunk`: what is written to the result, `none` where a slice does not match
its hash. Positions are `uint32_t`. -/
def readSlices (L : Lib) (pos cpos : BitVec 32) (room : Nat) : ChunkHeader → Bytes → Option Bytes
  | [], _ => some []
  | slice :: rest, input =>
    if cpos ≤ pos ∧ pos < cpos + slice.size then
      let tmp := readBytes slice.size.toNat input
      if L.sha1 tmp = slice.hash then
        let start := (pos - cpos).toNat
        let cbytes := min (tmp.length - start) room
        let written := (tmp.drop start).take cbytes
        if room - cbytes = 0 then some written
        else do
          let more ← readSlices L (pos + BitVec.ofNat 32 cbytes) (cpos + slice.size) (room - cbytes) rest
            (input.drop slice.size.toNat)
          some (written ++ more)
      else none
    else if room = 0 then some []
    else readSlices L pos (cpos + slice.size) room rest (input.drop slice.size.toNat)

/-- `get_chunk`; the size `-1` stands for the size of the chunk. -/
def getChunk (L : Lib) (disk : Disk) (id : Sha1) (pos s : BitVec 32) : Option Bytes := do
  let file ← disk.files id
  let (head, input) ← L.chunkHeaders.unpack file
  let s := if s = -1 then BitVec.ofNat 32 (calculateSize head) else s
  let written ← readSlices L pos 0 s.toNat head input
  some (written ++ List.replicate (s.toNat - written.length) 0)

/-- `get_resource( file_ref )`; `none` also where the copy leaves one of the two vectors. -/
def getResource (L : Lib) (disk : Disk) (r : FileRef) : Option Bytes := do
  let rd ← getChunk L disk r.chunk r.pos r.size
  let rd := derandomize L r.seed rd r.pos.toNat
  -- `r.size+1` is a `uint32_t`
  let tmp : Bytes := List.replicate (r.size + 1).toNat 0
  if rd.length < r.size.toNat ∨ tmp.length < 1 + r.size.toNat then none
  else some (r.type :: rd.take r.size.toNat ++ tmp.drop (1 + r.size.toNat))

/-- The loop of `import_file`: `r` is a `uint32_t`, and the buffer keeps what a short read leaves. -/
def importLoop (L : Lib) (size : Nat) : Nat → BitVec 32 → Bytes → Bytes → List (Sha1 × UInt64) → Disk →
    Option (List (Sha1 × UInt64) × Disk)
  | 0, _, _, _, _, _ => none
  | fuel + 1, r, chunk, input, chunks, disk =>
    if r.toNat < size then do
      let n := min chunk.length (size - r.toNat)
      let buf := input.take n ++ chunk.drop (min n input.length)
      let (tmp, seed) ← randomize L fuel buf (seedOf (L.sha1 buf))
      let chunk := tmp.take n
      let (id, disk) := storeChunk L disk (sliceChunk L chunk) chunk
      importLoop L size fuel (r + BitVec.ofNat 32 n) chunk (input.drop n) (chunks ++ [(id, seed)]) disk
    else some (chunks, disk)

/-- `import_file`. -/
def importFile (L : Lib) (fuel : Nat) (disk : Disk) (file : Bytes) : Option (FileHeader × Disk) := do
  let (chunks, disk) ← importLoop L file.length fuel 0 (List.replicate MAX_CHUNK_SIZE 0) file [] disk
  some (⟨UInt64.ofNat file.length, chunks⟩, disk)

/-- The last part of `import`: the chunk of a type byte and what follows it. -/
def storeTyped (L : Lib) (fuel : Nat) (disk : Disk) (data : Bytes) : Option (Link × Disk) := do
  let (data, seed) ← randomize L fuel data (seedOf (L.sha1 data))
  let (id, disk) := storeChunk L disk (sliceChunk L data) data
  some (⟨id, seed⟩, disk)

/-- The buffer a header is packed into behind its type byte, resized to `tellp()` of the stream,
which does not count that byte. -/
def headerBuffer (packed : Bytes) : Bytes :=
  (fileHeaderType :: packed ++ List.replicate (MAX_CHUNK_SIZE - 1 - packed.length) 0).take packed.length

/-- `import` of a regular file; `none` where it throws or does not return. -/
def «import» (L : Lib) (fuel : Nat) (disk : Disk) (file : Bytes) : Option (Link × Disk) :=
  if IMBED_THRESHOLD < file.length then do
    let (head, disk) ← importFile L fuel disk file
    let packed := L.fileHeaders.pack head
    if packed.length ≤ MAX_CHUNK_SIZE - 1 then storeTyped L fuel disk (headerBuffer packed) else none
  else storeTyped L fuel disk (fileDataType :: file)

/-- The chunks of a file, as `export_link` writes them. -/
def exportChunks (L : Lib) (disk : Disk) : List (Sha1 × UInt64) → Option Bytes
  | [] => some []
  | (hash, seed) :: rest => do
    let c ← getChunk L disk hash 0 (-1)
    let more ← exportChunks L disk rest
    some (derandomize L seed c 0 ++ more)

/-- `export_link`: the bytes of the file it writes; `none` where it throws or writes no file. -/
def exportLink (L : Lib) (disk : Disk) (l : Link) : Option Bytes := do
  let ch ← getChunk L disk l.id 0 (-1)
  match derandomize L l.seed ch 0 with
  | [] => none
  | type :: body =>
    if type = fileDataType then some body
    else if type = fileHeaderType then do
      let (head, _) ← L.fileHeaders.unpack body
      exportChunks L disk head.chunks
    else none

end Tornet.Cafs
