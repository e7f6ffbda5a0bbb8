import Tornet.Cafs.RoundTrip

/-! `import_directory`: the contents of a directory are packed one behind the other into chunks, and
every entry refers to a range of one. Contents that were imported before are found by their hash. -/
namespace Tornet.Cafs
open Library

/-- `cafs::unknown`, for what is neither a directory to enter nor a regular file. -/
def unknownType : UInt8 := 3

/-- A `file_ref` with the hash of what it refers to. -/
structure StoredRef extends FileRef where
  content : Sha1
  deriving DecidableEq, Repr

/-- `directory::entry`. -/
structure Entry where
  name : Bytes
  ref : StoredRef
  deriving DecidableEq, Repr

/-- With `fc::raw` for a `directory`. -/
structure DirLib extends Lib where
  directories : Codec (List Entry)

/-- What lies under a path; the items of a directory in the order of `directory_iterator`. -/
inductive Tree where
  | file (data : Bytes)
  | directory (items : List (Bytes × Tree))
  | other

/-- The chunk files, the file database, and what `rand()` is going to return. -/
structure Store where
  disk : Disk := {}
  fileDb : Sha1 → Option StoredRef := fun _ => none
  rands : Nat → UInt64

/-- `cafs_file_db::store`: a key that exists is left as it is. -/
def storeRef (db : Sha1 → Option StoredRef) (r : StoredRef) : Sha1 → Option StoredRef :=
  match db r.content with
  | some _ => db
  | none => Function.update db r.content (some r)

/-- The variables of the loop: `dir`, the bytes written to `cur_chunk_ds`, and the store. -/
structure Packing where
  dir : List Entry := []
  chunk : Bytes := []
  store : Store

/-- `add_to_chunk`; a stream keeps room for one byte more than is written. -/
def addToChunk (L : Lib) (s : Packing) (name content : Bytes) (type : UInt8) : Option Packing :=
  if content.length < MAX_CHUNK_SIZE - s.chunk.length then
    some { s with
      chunk := s.chunk ++ content
      dir := s.dir ++ [⟨name, ⟨0, 0, BitVec.ofNat 32 s.chunk.length, BitVec.ofNat 32 content.length, type⟩,
        L.sha1 content⟩] }
  else none

/-- The loop of `save_chunk`: an entry whose chunk is `fc::sha1()` waits for one. -/
def patch (seed : UInt64) (id : Sha1) (e : Entry) : Entry :=
  if e.ref.chunk = 0 then { e with ref := { e.ref with seed := seed, chunk := id } } else e

/-- `save_chunk`. -/
def saveChunk (L : Lib) (fuel : Nat) (s : Packing) : Option Packing := do
  let (cdata, seed) ← randomize L fuel s.chunk (s.store.rands 0)
  let (id, disk) := storeChunk L s.store.disk (sliceChunk L cdata) cdata
  some { s with
    dir := s.dir.map (patch seed id)
    store := { s.store with disk := disk, rands := fun n => s.store.rands (n + 1) } }

section
variable (L : DirLib) (fuel : Nat) (sub : Store → List (Bytes × Tree) → Option (List Entry × Store))

/-- `cur_file` and `cur_file_type` of an item, with `sub` for the import of a directory in it. A hidden
directory is neither entered nor a regular file. -/
def prepare (store : Store) : Bytes × Tree → Option (Bytes × UInt8 × Store)
  | (name, .directory items) =>
    if name.head? ≠ some 46 then do
      let (d, store) ← sub store items
      some (L.directories.pack d, directoryType, store)
    else some ([], unknownType, store)
  | (_, .file data) =>
    if IMBED_THRESHOLD < data.length then do
      let (head, disk) ← importFile L.toLib fuel store.disk data
      some (L.fileHeaders.pack head, fileHeaderType, { store with disk := disk })
    else some (data, fileDataType, store)
  | (_, .other) => some ([], unknownType, store)

/-- A turn of the loop. What does not fit an empty chunk either is dropped. -/
def importItem (s : Packing) (item : Bytes × Tree) : Option Packing := do
  let (content, type, store) ← prepare L fuel sub s.store item
  let s := { s with store := store }
  match store.fileDb (L.sha1 content) with
  | some ref => some { s with dir := s.dir ++ [⟨item.1, ref⟩] }
  | none =>
    match addToChunk L.toLib s item.1 content type with
    | some s => some s
    | none => do
      let s ← saveChunk L.toLib fuel s
      let s := { s with chunk := [] }
      some ((addToChunk L.toLib s item.1 content type).getD s)

end

/-- The end of the last turn: the chunk is saved if anything was written to it. -/
def saveLast (L : Lib) (fuel : Nat) (s : Packing) : Option Packing :=
  if s.chunk = [] then some s else saveChunk L fuel s

/-- `import_directory`; the fuel bounds how deep directories lie in each other, too. -/
def importDirectory (L : DirLib) : Nat → Store → List (Bytes × Tree) → Option (List Entry × Store)
  | 0, _, _ => none
  | fuel + 1, store, items => do
    let s ← items.foldlM (importItem L fuel (importDirectory L fuel)) { store := store }
    let s ← saveLast L.toLib fuel s
    some (s.dir, { s.store with fileDb := s.dir.foldl (fun db e => storeRef db e.ref) s.store.fileDb })

end Tornet.Cafs
