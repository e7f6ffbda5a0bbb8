import Tornet.Cafs.Entries

/-! The data that imports pass to `store_chunk`, in their order and as far as an import gets, and the sizes of the
chunks that the contents of a directory make. -/
namespace Tornet.Cafs
open Library

/-! ### What is passed -/

/-- The data that `randomize` returns, if it does. -/
def randomized (L : Lib) (fuel : Nat) (data : Bytes) (seed : UInt64) : List Bytes :=
  ((randomize L fuel data seed).map Prod.fst).toList

/-- The data of `importLoop`: what is kept of each buffer. -/
def loopVectors (L : Lib) (size : Nat) : Nat → BitVec 32 → Bytes → Bytes → List Bytes
  | 0, _, _, _ => []
  | fuel + 1, r, chunk, input =>
    if r.toNat < size then
      let n := min chunk.length (size - r.toNat)
      let buf := input.take n ++ chunk.drop (min n input.length)
      match randomize L fuel buf (seedOf (L.sha1 buf)) with
      | none => []
      | some (tmp, _) =>
        tmp.take n :: loopVectors L size fuel (r + BitVec.ofNat 32 n) (tmp.take n) (input.drop n)
    else []

/-- The data of `import_file`. -/
def fileVectors (L : Lib) (fuel : Nat) (file : Bytes) : List Bytes :=
  loopVectors L file.length fuel 0 (List.replicate MAX_CHUNK_SIZE 0) file

/-- The data of the chunk that `import` makes last. -/
def typedVectors (L : Lib) (fuel : Nat) (data : Bytes) : List Bytes :=
  randomized L fuel data (seedOf (L.sha1 data))

section
variable (L : DirLib) (fuel : Nat) (sub : Store → List (Bytes × Tree) → Option (List Entry × Store))
  (subVectors : Store → List (Bytes × Tree) → List Bytes)

/-- The data of `prepare`, with `subVectors` for the import of a directory. -/
def prepareVectors (store : Store) : Bytes × Tree → List Bytes
  | (name, .directory items) => if name.head? ≠ some 46 then subVectors store items else []
  | (_, .file data) => if IMBED_THRESHOLD < data.length then fileVectors L.toLib fuel data else []
  | (_, .other) => []

/-- The chunk that is saved because a content does not fit. -/
def fullVectors (s : Packing) (name content : Bytes) (type : UInt8) : List Bytes :=
  match s.store.fileDb (L.sha1 content) with
  | some _ => []
  | none =>
    match addToChunk L.toLib s name content type with
    | some _ => []
    | none => randomized L.toLib fuel s.chunk (s.store.rands 0)

/-- The data of a turn of the loop. -/
def itemVectors (s : Packing) (item : Bytes × Tree) : List Bytes :=
  prepareVectors L fuel subVectors s.store item ++
    match prepare L fuel sub s.store item with
    | some (content, type, store) => fullVectors L fuel { s with store := store } item.1 content type
    | none => []

/-- The data of `saveLast`. -/
def lastVectors (s : Packing) : List Bytes :=
  if s.chunk = [] then [] else randomized L.toLib fuel s.chunk (s.store.rands 0)

/-- The data of the loop from a turn on, and of the end of it. -/
def itemsVectors : List (Bytes × Tree) → Packing → List Bytes
  | [], s => lastVectors L fuel s
  | item :: rest, s =>
    itemVectors L fuel sub subVectors s item ++
      match importItem L fuel sub s item with
      | some s' => itemsVectors rest s'
      | none => []

end

/-- The data of `import_directory`. -/
def directoryVectors (L : DirLib) : Nat → Store → List (Bytes × Tree) → List Bytes
  | 0, _, _ => []
  | fuel + 1, store, items =>
    itemsVectors L fuel (importDirectory L fuel) (directoryVectors L fuel) items { store := store }

/-- `import` of what lies under a path; `none` where it throws or does not return. -/
def importPath (L : DirLib) (fuel : Nat) (store : Store) : Tree → Option (Link × Store)
  | .file data => do
    let (l, disk) ← «import» L.toLib fuel store.disk data
    some (l, { store with disk := disk })
  | .directory items => do
    let (dir, store) ← importDirectory L fuel store items
    let packed := L.directories.pack dir
    if packed.length ≤ MAX_CHUNK_SIZE - 1 then do
      let (l, disk) ← storeTyped L.toLib fuel store.disk (directoryType :: packed)
      some (l, { store with disk := disk })
    else none
  | .other => none

/-- The data of `import`. -/
def pathVectors (L : DirLib) (fuel : Nat) (store : Store) : Tree → List Bytes
  | .file data =>
    if IMBED_THRESHOLD < data.length then
      fileVectors L.toLib fuel data ++
        match importFile L.toLib fuel store.disk data with
        | some (head, _) =>
          let packed := L.fileHeaders.pack head
          if packed.length ≤ MAX_CHUNK_SIZE - 1 then typedVectors L.toLib fuel (headerBuffer packed) else []
        | none => []
    else typedVectors L.toLib fuel (fileDataType :: data)
  | .directory items =>
    directoryVectors L fuel store items ++
      match importDirectory L fuel store items with
      | some (dir, _) =>
        let packed := L.directories.pack dir
        if packed.length ≤ MAX_CHUNK_SIZE - 1 then typedVectors L.toLib fuel (directoryType :: packed) else []
      | none => []
  | .other => []

/-! ### The sizes of chunks -/

/-- The contents of the turns are packed into chunks, which have some bytes to begin with: the sizes of the chunks
that are saved for the next content, and what is left in the last. A content too large for any chunk begins none. -/
def packs : Nat → List Turn → List Nat × Nat
  | used, [] => ([], used)
  | used, t :: ts =>
    if t.found.isSome then packs used ts
    else if t.size < MAX_CHUNK_SIZE - used then packs (used + t.size) ts
    else (used :: (packs (if t.size < MAX_CHUNK_SIZE then t.size else 0) ts).1,
      (packs (if t.size < MAX_CHUNK_SIZE then t.size else 0) ts).2)

/-! ### The disk has them -/

/-- `store_chunk` for each of them. -/
def storeAll (L : Lib) (disk : Disk) (vectors : List Bytes) : Disk :=
  vectors.foldl (fun disk data => (stored L disk data).2) disk

variable {L : DirLib} {disk : Disk} {fuel : Nat}

theorem storeAll_append (L : Lib) (disk : Disk) (vs ws : List Bytes) :
    storeAll L disk (vs ++ ws) = storeAll L (storeAll L disk vs) ws := List.foldl_append ..

private theorem storeAll_randomized {L : Lib} {data tmp : Bytes} {seed seed' : UInt64}
    (h : randomize L fuel data seed = some (tmp, seed')) (disk : Disk) :
    storeAll L disk (randomized L fuel data seed) = (stored L disk tmp).2 := by
  rw [randomized, h]
  rfl

private theorem importLoop_disk {L : Lib} {size : Nat} {r : BitVec 32} {chunk input : Bytes}
    {chunks : List (Sha1 × UInt64)} {x : List (Sha1 × UInt64) × Disk}
    (h : importLoop L size fuel r chunk input chunks disk = some x) :
    x.2 = storeAll L disk (loopVectors L size fuel r chunk input) := by
  induction fuel generalizing r chunk input chunks disk with
  | zero => cases h
  | succ fuel ih =>
    rw [importLoop] at h
    rw [loopVectors]
    split_ifs at h ⊢ with hmore
    · obtain ⟨⟨tmp, seed⟩, hrand, hrest⟩ := Option.bind_eq_some_iff.mp h
      simp only [hrand]
      exact ih hrest
    · obtain rfl := Option.some.inj h
      rfl

theorem importFile_disk {L : Lib} {file : Bytes} {x : FileHeader × Disk} (h : importFile L fuel disk file = some x) :
    x.2 = storeAll L disk (fileVectors L fuel file) := by
  obtain ⟨y, hloop, hx⟩ := Option.bind_eq_some_iff.mp h
  obtain rfl := Option.some.inj hx
  exact importLoop_disk hloop

theorem storeTyped_disk {L : Lib} {data : Bytes} {x : Link × Disk} (h : storeTyped L fuel disk data = some x) :
    x.2 = storeAll L disk (typedVectors L fuel data) := by
  obtain ⟨⟨tmp, seed⟩, hrand, hx⟩ := Option.bind_eq_some_iff.mp h
  obtain rfl := Option.some.inj hx
  exact (storeAll_randomized hrand disk).symm

section
variable {store : Store} {s s' : Packing} {item : Bytes × Tree}
  {sub : Store → List (Bytes × Tree) → Option (List Entry × Store)}
  {subVectors : Store → List (Bytes × Tree) → List Bytes}
  (hsub : ∀ store items x, sub store items = some x → x.2.disk = storeAll L.toLib store.disk (subVectors store items))

private theorem saveChunk_disk (h : saveChunk L.toLib fuel s = some s') :
    s'.store.disk = storeAll L.toLib s.store.disk (randomized L.toLib fuel s.chunk (s.store.rands 0)) := by
  obtain ⟨tmp, seed, hrand, -, -, hstore⟩ := saveChunk_eq h
  rw [hstore, storeAll_randomized hrand]

private theorem saveLast_disk (h : saveLast L.toLib fuel s = some s') :
    s'.store.disk = storeAll L.toLib s.store.disk (lastVectors L fuel s) := by
  rw [saveLast] at h
  rw [lastVectors]
  split_ifs at h ⊢ with hnil
  · obtain rfl := Option.some.inj h
    rfl
  · exact saveChunk_disk h

include hsub

private theorem prepare_disk {x : Bytes × UInt8 × Store} (h : prepare L fuel sub store item = some x) :
    x.2.2.disk = storeAll L.toLib store.disk (prepareVectors L fuel subVectors store item) := by
  obtain ⟨name, tree⟩ := item
  cases tree with
  | directory items =>
    simp only [prepare, prepareVectors] at h ⊢
    split_ifs at h ⊢ with hidden
    · obtain ⟨d, hd, hx⟩ := Option.bind_eq_some_iff.mp h
      obtain rfl := Option.some.inj hx
      exact hsub store items d hd
    · obtain rfl := Option.some.inj h
      rfl
  | file data =>
    simp only [prepare, prepareVectors] at h ⊢
    split_ifs at h ⊢ with hlarge
    · obtain ⟨d, hd, hx⟩ := Option.bind_eq_some_iff.mp h
      obtain rfl := Option.some.inj hx
      exact importFile_disk hd
    · obtain rfl := Option.some.inj h
      rfl
  | other =>
    obtain rfl := Option.some.inj h
    rfl

private theorem importItem_disk (h : importItem L fuel sub s item = some s') :
    s'.store.disk = storeAll L.toLib s.store.disk (itemVectors L fuel sub subVectors s item) := by
  obtain ⟨content, type, store, hprep, hcase⟩ := importItem_cases h
  have hdisk : store.disk = storeAll L.toLib s.store.disk (prepareVectors L fuel subVectors s.store item) :=
    prepare_disk hsub hprep
  simp only [itemVectors, hprep, storeAll_append, ← hdisk, fullVectors]
  rcases hcase with ⟨ref, hdb, rfl⟩ | ⟨hdb, hadd⟩ | ⟨hdb, hfull, s₁, hsave, rfl⟩
  · simp only [hdb]
    rfl
  · simp only [hdb, hadd]
    exact congrArg Store.disk (addToChunk_store hadd)
  · simp only [hdb, hfull]
    rw [addToChunk_getD_store]
    exact saveChunk_disk hsave

private theorem items_disk {items : List (Bytes × Tree)}
    (h : items.foldlM (importItem L fuel sub) s >>= saveLast L.toLib fuel = some s') :
    s'.store.disk = storeAll L.toLib s.store.disk (itemsVectors L fuel sub subVectors items s) := by
  induction items generalizing s with
  | nil => exact saveLast_disk h
  | cons item rest ih =>
    rw [List.foldlM_cons, bind_assoc] at h
    obtain ⟨s₁, hitem, hrest⟩ := Option.bind_eq_some_iff.mp h
    simp only [itemsVectors, hitem, storeAll_append]
    rw [← importItem_disk hsub hitem]
    exact ih hrest

end

/-- An import of a directory leaves the disk with the data stored that it passes. -/
theorem importDirectory_disk (L : DirLib) (fuel : Nat) (store : Store) (items : List (Bytes × Tree))
    (x : List Entry × Store) (h : importDirectory L fuel store items = some x) :
    x.2.disk = storeAll L.toLib store.disk (directoryVectors L fuel store items) := by
  induction fuel generalizing store items x with
  | zero => cases h
  | succ fuel ih =>
    obtain ⟨dir, store'⟩ := x
    obtain ⟨s, s', hloop, hclose, -, rfl⟩ := importDirectory_eq h
    exact items_disk ih (Option.bind_eq_some_iff.mpr ⟨s, hloop, hclose⟩)

/-- So does an import of any path. -/
theorem importPath_disk {store : Store} {t : Tree} {x : Link × Store} (h : importPath L fuel store t = some x) :
    x.2.disk = storeAll L.toLib store.disk (pathVectors L fuel store t) := by
  cases t with
  | file data =>
    obtain ⟨y, himport, hx⟩ := Option.bind_eq_some_iff.mp h
    obtain rfl := Option.some.inj hx
    rw [«import»] at himport
    rw [pathVectors]
    split_ifs at himport ⊢ with hlarge
    · obtain ⟨⟨head, disk⟩, hfile, hrest⟩ := Option.bind_eq_some_iff.mp himport
      dsimp only at hrest
      split_ifs at hrest with hfits
      simp only [hfile, if_pos hfits, storeAll_append]
      rw [← importFile_disk hfile]
      exact storeTyped_disk hrest
    · exact storeTyped_disk himport
  | directory items =>
    obtain ⟨⟨dir, store'⟩, hdir, hrest⟩ := Option.bind_eq_some_iff.mp h
    dsimp only at hrest
    split_ifs at hrest with hfits
    obtain ⟨y, htyped, hx⟩ := Option.bind_eq_some_iff.mp hrest
    obtain rfl := Option.some.inj hx
    simp only [pathVectors, hdir, if_pos hfits, storeAll_append]
    rw [← importDirectory_disk L fuel store items _ hdir]
    exact storeTyped_disk htyped
  | other => cases h

end Tornet.Cafs
