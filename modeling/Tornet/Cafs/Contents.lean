import Tornet.Cafs.Items

/-! What an imported directory holds: each entry refers to the content of its item, down to the files of every
subdirectory. Contents are known by their hashes, so no two that were ever imported may share one. -/
namespace Tornet.Cafs
open Library

variable {L : DirLib} {disk disk' : Disk} {store store' : Store} {s s' : Packing} {r : StoredRef} {fuel : Nat}

/-! ### The contents of an import -/

section
variable (L : DirLib) (fuel : Nat) (sub : Store → List (Bytes × Tree) → Option (List Entry × Store))
  (subContents : Store → List (Bytes × Tree) → List (Bytes × UInt8))

def innerContents (store : Store) : Bytes × Tree → List (Bytes × UInt8)
  | (name, .directory items) => if name.head? ≠ some 46 then subContents store items else []
  | (_, .file _) | (_, .other) => []

/-- `cur_file` and `cur_file_type` of every turn. -/
def itemsContents : List (Bytes × Tree) → Packing → List (Bytes × UInt8)
  | [], _ => []
  | item :: rest, s =>
    innerContents subContents s.store item ++
      match prepare L fuel sub s.store item, importItem L fuel sub s item with
      | some (content, type, _), some s' => (content, type) :: itemsContents rest s'
      | _, _ => []

end

/-- All that `import_directory` asks the file database for, with the types. -/
def directoryContents (L : DirLib) : Nat → Store → List (Bytes × Tree) → List (Bytes × UInt8)
  | 0, _, _ => []
  | fuel + 1, store, items =>
    itemsContents L fuel (importDirectory L fuel) (directoryContents L fuel) items { store := store }

/-- The stores that imports leave behind, with all contents that were imported into them. -/
inductive History (L : DirLib) : List (Bytes × UInt8) → Store → Prop
  | nil (rands : Nat → UInt64) : History L [] { rands := rands }
  | chunk {cs : List (Bytes × UInt8)} {store : Store} (head : ChunkHeader) (data : Bytes) :
    History L cs store → History L cs { store with disk := (storeChunk L.toLib store.disk head data).2 }
  | rand {cs : List (Bytes × UInt8)} {store : Store} (rands : Nat → UInt64) :
    History L cs store → History L cs { store with rands := rands }
  | directory {cs : List (Bytes × UInt8)} {store store' : Store} {dir : List Entry} {items : List (Bytes × Tree)}
    {fuel : Nat} : History L cs store → importDirectory L fuel store items = some (dir, store') →
      History L (cs ++ directoryContents L fuel store items) store'

def Distinct (L : DirLib) (cs : List (Bytes × UInt8)) : Prop :=
  ∀ c ∈ cs, ∀ c' ∈ cs, L.sha1 c.1 = L.sha1 c'.1 → c = c'

instance (L : DirLib) (cs : List (Bytes × UInt8)) : Decidable (Distinct L cs) :=
  inferInstanceAs (Decidable (∀ c ∈ cs, ∀ c' ∈ cs, L.sha1 c.1 = L.sha1 c'.1 → c = c'))

/-! ### What the disk holds -/

/-- `get_resource` returns the content. -/
def Reads (L : DirLib) (disk : Disk) (r : StoredRef) (content : Bytes) : Prop :=
  (disk.files r.chunk).isSome = true ∧ getResource L.toLib disk r.toFileRef = some (r.type :: content)

mutual

/-- A content of a type is that of what lies under a path. -/
inductive Denotes (L : DirLib) (disk : Disk) : Tree → UInt8 → Bytes → Prop
  | file {data : Bytes} : data.length ≤ IMBED_THRESHOLD → Denotes L disk (.file data) fileDataType data
  | large {data : Bytes} {head : FileHeader} : IMBED_THRESHOLD < data.length →
      head.chunks.length = (data.length + MAX_CHUNK_SIZE - 1) / MAX_CHUNK_SIZE →
      exportChunks L.toLib disk head.chunks = some data →
      Denotes L disk (.file data) fileHeaderType (L.fileHeaders.pack head)
  | directory {items : List (Bytes × Tree)} {dir : List Entry} : DenotesAll L disk items dir →
      Denotes L disk (.directory items) directoryType (L.directories.pack dir)

/-- So are the contents of the entries those of the items, one by one. -/
inductive DenotesAll (L : DirLib) (disk : Disk) : List (Bytes × Tree) → List Entry → Prop
  | nil : DenotesAll L disk [] []
  | cons {tree : Tree} {e : Entry} {content : Bytes} {items : List (Bytes × Tree)} {dir : List Entry} :
      Reads L disk e.ref content → Denotes L disk tree e.ref.type content → DenotesAll L disk items dir →
      DenotesAll L disk ((e.name, tree) :: items) (e :: dir)

end

/-- What can be imported whole: no file is empty, no directory hidden, nothing else is there, each has a name, and the
names of each subdirectory are short enough for it to fit a chunk. -/
inductive Plain : Tree → Prop
  | file {data : Bytes} : data ≠ [] → Plain (.file data)
  | directory {items : List (Bytes × Tree)} :
      5 + ((items.map Prod.fst).map fun name => name.length + 62).sum < MAX_CHUNK_SIZE →
      (∀ name tree, (name, tree) ∈ items → Plain tree) → (∀ name tree, (name, tree) ∈ items → name ≠ []) →
      (∀ name inner, (name, Tree.directory inner) ∈ items → name.head? ≠ some 46) → Plain (.directory items)

def PlainItem (item : Bytes × Tree) : Prop :=
  Plain item.2 ∧ ∀ inner, item.2 = .directory inner → item.1.head? ≠ some 46

/-! ### Growth -/

theorem getChunk_grow {L : Lib} {id : Sha1} {pos size : BitVec 32} {b : Bytes} (hgrows : Grows disk disk')
    (h : getChunk L disk id pos size = some b) : getChunk L disk' id pos size = some b := by
  obtain ⟨f, hf, -⟩ := Option.bind_eq_some_iff.mp h
  rw [← h]
  simp only [getChunk, hf, hgrows.files id f hf]

theorem Reads.grow {content : Bytes} (h : Reads L disk r content) (hgrows : Grows disk disk') :
    Reads L disk' r content := by
  obtain ⟨hsome, hget⟩ := h
  obtain ⟨f, hf⟩ := Option.isSome_iff_exists.mp hsome
  have hf' := hgrows.files _ f hf
  refine ⟨by rw [hf']; rfl, ?_⟩
  rw [← hget]
  simp only [getResource, getChunk, hf, hf']

private theorem exportChunks_grow {L : Lib} {chunks : List (Sha1 × UInt64)} {b : Bytes} (hgrows : Grows disk disk')
    (h : exportChunks L disk chunks = some b) : exportChunks L disk' chunks = some b := by
  induction chunks generalizing b with
  | nil => exact h
  | cons c chunks ih =>
    obtain ⟨chunk, hchunk, hrest⟩ := Option.bind_eq_some_iff.mp h
    obtain ⟨more, hmore, hb⟩ := Option.bind_eq_some_iff.mp hrest
    rw [exportChunks, getChunk_grow hgrows hchunk, ih hmore]
    exact hb

mutual

theorem Denotes.grow {tree : Tree} {type : UInt8} {content : Bytes} (hgrows : Grows disk disk') :
    Denotes L disk tree type content → Denotes L disk' tree type content
  | .file hsmall => .file hsmall
  | .large hlarge hcount hexport => .large hlarge hcount (exportChunks_grow hgrows hexport)
  | .directory hall => .directory (hall.grow hgrows)

theorem DenotesAll.grow {items : List (Bytes × Tree)} {dir : List Entry} (hgrows : Grows disk disk') :
    DenotesAll L disk items dir → DenotesAll L disk' items dir
  | .nil => .nil
  | .cons hreads htree hrest => .cons (hreads.grow hgrows) (htree.grow hgrows) (hrest.grow hgrows)

end

theorem DenotesAll.names {items : List (Bytes × Tree)} {dir : List Entry} :
    DenotesAll L disk items dir → dir.map Entry.name = items.map Prod.fst
  | .nil => rfl
  | .cons _ _ hrest => congrArg _ hrest.names

/-- The size of a reference is that of the content. -/
theorem Reads.size {content : Bytes} (h : Reads L disk r content) : r.size.toNat = content.length :=
  (Nat.succ.inj (length_getResource h.2)).symm

/-! ### The chunks of a large file -/

/-- They are as many as the file needs, and are read back as the file. -/
theorem importLoop_chunks {L : Lib} {size : Nat} {p : BitVec 32} {chunk input : Bytes} {chunks : List (Sha1 × UInt64)}
    {x : List (Sha1 × UInt64) × Disk} (hsize : size < 2 ^ 32) (hleft : p.toNat + input.length = size)
    (hfull : input = [] ∨ chunk.length = MAX_CHUNK_SIZE)
    (h : importLoop L size fuel p chunk input chunks disk = some x) (hfree : x.2.clash = false) :
    ∃ added, x.1 = chunks ++ added ∧ exportChunks L x.2 added = some input ∧
      added.length = (input.length + MAX_CHUNK_SIZE - 1) / MAX_CHUNK_SIZE := by
  have hmax : MAX_CHUNK_SIZE = 4194304 := rfl
  induction fuel generalizing p chunk input chunks disk with
  | zero => cases h
  | succ fuel ih =>
    rw [importLoop] at h
    split_ifs at h with hmore
    · obtain ⟨⟨tmp, seed⟩, hrand, hrest⟩ := Option.bind_eq_some_iff.mp h
      have hchunk : chunk.length = MAX_CHUNK_SIZE := by
        apply hfull.resolve_left
        rintro rfl
        rw [List.length_nil] at hleft
        omega
      generalize hn : min chunk.length (size - p.toNat) = n at hrand hrest
      have hin : min n input.length = n := by omega
      rw [hin] at hrand
      have htmp : tmp.length = MAX_CHUNK_SIZE := by
        rw [length_randomize hrand, List.length_append, List.length_take, List.length_drop]
        omega
      have hp : (p + BitVec.ofNat 32 n).toNat = p.toNat + n := by
        rw [BitVec.toNat_add, BitVec.toNat_ofNat]
        omega
      have hnext : input.drop n = [] ∨ (tmp.take n).length = MAX_CHUNK_SIZE := by
        rw [List.length_take, List.drop_eq_nil_iff]
        omega
      obtain ⟨added, hadded, hexport, hcount⟩ := ih (by rw [hp, List.length_drop]; omega) hnext hrest
      have hgrows : Grows (stored L disk (tmp.take n)).2 x.2 := importLoop_grows hrest
      have hold : Holds L x.2 (stored L disk (tmp.take n)).1 (tmp.take n) :=
        hgrows.files _ _ (stored_holds (hgrows.clash hfree))
      have hpart : derandomize L seed (tmp.take n) 0 = input.take n := by
        rw [derandomize_randomize hrand n, List.take_left' (by rw [List.length_take]; omega)]
      refine ⟨((stored L disk (tmp.take n)).1, seed) :: added, ?_, ?_, ?_⟩
      · rw [hadded, List.append_assoc]
        rfl
      · rw [exportChunks_cons hold (by rw [List.length_take]; omega) hexport, hpart, List.take_append_drop]
      · rw [List.length_cons, hcount, List.length_drop, hmax]
        omega
    · obtain rfl := Option.some.inj h
      have hnil : input = [] := List.length_eq_zero_iff.mp (by omega)
      subst hnil
      exact ⟨[], (List.append_nil _).symm, rfl, rfl⟩

private theorem importFile_denotes {data : Bytes} {head : FileHeader} (hlarge : IMBED_THRESHOLD < data.length)
    (h : importFile L.toLib fuel disk data = some (head, disk')) (hfree : disk'.clash = false) :
    Denotes L disk' (.file data) fileHeaderType (L.fileHeaders.pack head) := by
  obtain ⟨⟨chunks, disk₁⟩, hloop, hx⟩ := Option.bind_eq_some_iff.mp h
  obtain ⟨rfl, rfl⟩ := Prod.mk.inj (Option.some.inj hx)
  have hsize : data.length < 2 ^ 32 := by
    by_contra hlong
    rw [importLoop_endless L.toLib (Nat.not_lt.mp hlong)] at hloop
    cases hloop
  obtain ⟨added, hadded, hexport, hcount⟩ :=
    importLoop_chunks hsize (Nat.zero_add _) (.inr List.length_replicate) hloop hfree
  rw [List.nil_append] at hadded
  dsimp only at hadded
  subst hadded
  exact .large hlarge hcount hexport

/-- A packed file header: 28 bytes for each chunk. -/
theorem length_rawFileHeader (head : FileHeader) : (rawFileHeaders.pack head).length =
    8 + (Varint.encode head.chunks.length).length + 28 * head.chunks.length := by
  simp [rawFileHeaders, rawUint64, Codec.list, Codec.map, Codec.pair, Codec.varint, Codec.word, Codec.beWord,
    Codec.fixed, Codec.length_leBytes, Nat.add_assoc, Nat.mul_comm]

/-! ### References to contents -/

/-- The content stands in the chunk that is being filled, and has no id yet. -/
structure Awaits (chunk : Bytes) (r : StoredRef) (content : Bytes) : Prop where
  unset : r.chunk = 0
  range : r.pos.toNat + r.size.toNat ≤ chunk.length
  bytes : (chunk.drop r.pos.toNat).take r.size.toNat = content

/-- A reference to a content of a type. -/
structure Refers (L : DirLib) (disk : Disk) (chunk : Bytes) (r : StoredRef) (c : Bytes × UInt8) : Prop where
  type : r.type = c.2
  hash : r.content = L.sha1 c.1
  place : Reads L disk r c.1 ∨ Awaits chunk r c.1

/-- The file database has references to contents of a set only. -/
def Knows (L : DirLib) (C : Set (Bytes × UInt8)) (store : Store) : Prop :=
  ∀ h r, store.fileDb h = some r → ∃ c ∈ C, h = L.sha1 c.1 ∧ Refers L store.disk [] r c

theorem Awaits.append {chunk content : Bytes} (h : Awaits chunk r content) (more : Bytes) :
    Awaits (chunk ++ more) r content := by
  have hrange := h.range
  refine ⟨h.unset, by rw [List.length_append]; omega, ?_⟩
  rw [← h.bytes, List.drop_append_of_le_length (by omega), List.take_append_of_le_length]
  rw [List.length_drop]
  omega

theorem Refers.grow {chunk : Bytes} {c : Bytes × UInt8} (h : Refers L disk chunk r c) (hgrows : Grows disk disk')
    (more : Bytes) : Refers L disk' (chunk ++ more) r c :=
  ⟨h.type, h.hash, h.place.imp (fun hreads => hreads.grow hgrows) fun hawaits => hawaits.append more⟩

theorem Refers.found {c : Bytes × UInt8} (h : Refers L disk [] r c) (chunk : Bytes) : Refers L disk chunk r c :=
  h.grow (.refl disk) chunk

/-- A content that is not empty is read, if no chunk is left to be saved. -/
theorem Refers.reads {c : Bytes × UInt8} (h : Refers L disk [] r c) (hne : c.1 ≠ []) : Reads L disk r c.1 := by
  apply h.place.resolve_right
  intro hawaits
  apply hne
  rw [← hawaits.bytes, List.drop_nil, List.take_nil]

theorem Knows.grow {C : Set (Bytes × UInt8)} (h : Knows L C store) (hgrows : Grows store.disk disk')
    (rands : Nat → UInt64) : Knows L C { store with disk := disk', rands := rands } := by
  intro key r hr
  obtain ⟨c, hc, hkey, hrefers⟩ := h key r hr
  exact ⟨c, hc, hkey, hrefers.grow hgrows []⟩

theorem Awaits.reads {tmp chunk content : Bytes} {seed seed' : UInt64} (h : Awaits chunk r content)
    (hlen : chunk.length + 1 < 2 ^ 32) (hrand : randomize L.toLib fuel chunk seed = some (tmp, seed'))
    (hfree : (stored L.toLib disk tmp).2.clash = false) :
    Reads L (stored L.toLib disk tmp).2 { r with seed := seed', chunk := (stored L.toLib disk tmp).1 } content := by
  obtain ⟨hsome, hget⟩ := stored_reads hlen hrand hfree h.range
  rw [h.bytes] at hget
  exact ⟨hsome, hget⟩

theorem Reads.set {content : Bytes} (h : Reads L disk r content) (hsound : Sound disk) : r.chunk ≠ 0 := by
  intro hzero
  have hsome := h.1
  rw [hzero, hsound.unset] at hsome
  cases hsome

/-- `save_chunk` gives each reference without a chunk the one that is saved. -/
theorem Refers.patch {tmp chunk : Bytes} {seed seed' : UInt64} {c : Bytes × UInt8} (h : Refers L disk chunk r c)
    (name : Bytes) (hlen : chunk.length + 1 < 2 ^ 32) (hrand : randomize L.toLib fuel chunk seed = some (tmp, seed'))
    (hsound : Sound (stored L.toLib disk tmp).2) :
    Refers L (stored L.toLib disk tmp).2 [] (patch seed' (stored L.toLib disk tmp).1 ⟨name, r⟩).ref c := by
  have hgrows := stored_grows L.toLib disk tmp
  rw [Cafs.patch]
  rcases h.place with hreads | hawaits
  · rw [if_neg (hreads.set (hsound.of_grows hgrows))]
    exact ⟨h.type, h.hash, .inl (hreads.grow hgrows)⟩
  · rw [if_pos hawaits.unset]
    exact ⟨h.type, h.hash, .inl (hawaits.reads hlen hrand hsound.clash)⟩

/-! ### A turn of the loop -/

/-- An item with its content, and the entry for it. -/
def Entered (L : DirLib) (disk : Disk) (chunk : Bytes) (p : (Bytes × Tree) × (Bytes × UInt8)) (e : Entry) : Prop :=
  e.name = p.1.1 ∧ Refers L disk chunk e.ref p.2

/-- A content is that of an item, not empty and not too large. -/
structure Prepared (L : DirLib) (disk : Disk) (p : (Bytes × Tree) × (Bytes × UInt8)) : Prop where
  denotes : Denotes L disk p.1.2 p.2.2 p.2.1
  ne_nil : p.2.1 ≠ []
  fits : p.2.1.length < MAX_CHUNK_SIZE

/-- The state of the loop, with the items it is done with and their contents. -/
structure Packed (L : DirLib) (C : Set (Bytes × UInt8)) (done : List ((Bytes × Tree) × (Bytes × UInt8)))
    (s : Packing) : Prop where
  knows : Knows L C s.store
  size : s.chunk.length < MAX_CHUNK_SIZE
  prepared : ∀ p ∈ done, p.2 ∈ C ∧ (PlainItem p.1 → Prepared L s.store.disk p)
  entries : List.Forall₂ (Entered L s.store.disk s.chunk) done s.dir

variable {C : Set (Bytes × UInt8)} {done : List ((Bytes × Tree) × (Bytes × UInt8))} {p : (Bytes × Tree) × (Bytes × UInt8)}

theorem Prepared.grow (h : Prepared L disk p) (hgrows : Grows disk disk') : Prepared L disk' p :=
  ⟨h.denotes.grow hgrows, h.ne_nil, h.fits⟩

theorem Packed.init (h : Knows L C store) : Packed L C [] { store := store } :=
  ⟨h, maxChunkSize_pos, fun _ hp => absurd hp List.not_mem_nil, .nil⟩

/-- An item is prepared. -/
theorem Packed.prepare (h : Packed L C done s) (hgrows : Grows s.store.disk store'.disk) (hknows : Knows L C store') :
    Packed L C done { s with store := store' } := by
  refine ⟨hknows, h.size, fun p hp => ?_, ?_⟩
  · exact (h.prepared p hp).imp_right fun hplain hitem => (hplain hitem).grow hgrows
  apply h.entries.imp
  rintro p e ⟨hname, hrefers⟩
  have hgrown := hrefers.grow hgrows []
  rw [List.append_nil] at hgrown
  exact ⟨hname, hgrown⟩

/-- The entry of an item is added, behind what is in the chunk. -/
theorem Packed.concat (h : Packed L C done s) {e : Entry} (more : Bytes)
    (hsize : (s.chunk ++ more).length < MAX_CHUNK_SIZE)
    (hp : p.2 ∈ C ∧ (PlainItem p.1 → Prepared L s.store.disk p))
    (he : Entered L s.store.disk (s.chunk ++ more) p e) :
    Packed L C (done ++ [p]) { s with chunk := s.chunk ++ more, dir := s.dir ++ [e] } := by
  refine ⟨h.knows, hsize, fun q hq => ?_, ?_⟩
  · rcases List.mem_append.mp hq with hq | hq
    · exact h.prepared q hq
    · exact List.mem_singleton.mp hq ▸ hp
  · apply List.rel_append _ (.cons he .nil)
    apply h.entries.imp
    rintro q e ⟨hname, hrefers⟩
    exact ⟨hname, hrefers.grow (.refl _) more⟩

/-- The content of an item is added to the chunk. -/
theorem Packed.add (h : Packed L C done s) (hp : p.2 ∈ C ∧ (PlainItem p.1 → Prepared L s.store.disk p))
    (hadd : addToChunk L.toLib s p.1.1 p.2.1 p.2.2 = some s') : Packed L C (done ++ [p]) s' := by
  have hmax : MAX_CHUNK_SIZE < 2 ^ 32 := by decide
  have hsize := h.size
  rw [addToChunk] at hadd
  split_ifs at hadd with hfits
  obtain rfl := Option.some.inj hadd
  have hpos : (BitVec.ofNat 32 s.chunk.length).toNat = s.chunk.length := toNat_pos (by omega)
  have hlen : (BitVec.ofNat 32 p.2.1.length).toNat = p.2.1.length := toNat_pos (by omega)
  apply h.concat p.2.1 (by rw [List.length_append]; omega) hp
  refine ⟨rfl, rfl, rfl, .inr ⟨rfl, ?_, ?_⟩⟩
  · rw [hpos, hlen, List.length_append]
  · rw [hpos, hlen, List.drop_left, List.take_length]

/-- The chunk is saved, and another one begun. -/
theorem Packed.save (h : Packed L C done s) (hsave : saveChunk L.toLib fuel s = some s') (hsound : Sound s'.store.disk) :
    Packed L C done { s' with chunk := [] } := by
  obtain ⟨tmp, seed, hrand, hdir, -, hstore⟩ := saveChunk_eq hsave
  have hgrows := stored_grows L.toLib s.store.disk tmp
  rw [hstore] at hsound
  refine ⟨?_, maxChunkSize_pos, fun p hp => ?_, ?_⟩
  · rw [hstore]
    exact h.knows.grow hgrows _
  · rw [hstore]
    exact (h.prepared p hp).imp_right fun hplain hitem => (hplain hitem).grow hgrows
  · rw [hdir, hstore, List.forall₂_map_right_iff]
    apply h.entries.imp
    rintro p e ⟨hname, hrefers⟩
    refine ⟨?_, hrefers.patch e.name (Nat.lt_of_le_of_lt h.size (by decide)) hrand hsound⟩
    rw [patch]
    split_ifs
    · exact hname
    · exact hname

section
variable {sub : Store → List (Bytes × Tree) → Option (List Entry × Store)}
  {subContents : Store → List (Bytes × Tree) → List (Bytes × UInt8)} {item : Bytes × Tree} {items : List (Bytes × Tree)}

def Nested (L : DirLib) (C : Set (Bytes × UInt8)) (sub : Store → List (Bytes × Tree) → Option (List Entry × Store))
    (subContents : Store → List (Bytes × Tree) → List (Bytes × UInt8)) : Prop :=
  ∀ store items dir store', sub store items = some (dir, store') → (∀ c ∈ subContents store items, c ∈ C) →
    Sound store'.disk → Knows L C store →
      Knows L C store' ∧ (Plain (.directory items) → DenotesAll L store'.disk items dir)

private theorem prepare_file {data name : Bytes} {c : Bytes × UInt8} (hheads : L.fileHeaders = rawFileHeaders)
    (h : prepare L fuel sub store (name, .file data) = some (c.1, c.2, store')) (hsound : Sound store'.disk)
    (hknows : Knows L C store) : Knows L C store' ∧ (data ≠ [] → Prepared L store'.disk ((name, .file data), c)) := by
  simp only [prepare] at h
  split_ifs at h with hlarge
  · obtain ⟨⟨head, disk⟩, hd, hx⟩ := Option.bind_eq_some_iff.mp h
    obtain ⟨hc, htype, rfl⟩ : L.fileHeaders.pack head = c.1 ∧ fileHeaderType = c.2 ∧
        { store with disk := disk } = store' := by simpa using hx
    refine ⟨hknows.grow (importFile_grows hd) _, fun _ => ⟨?_, ?_, ?_⟩⟩
    · rw [← htype, ← hc]
      exact importFile_denotes hlarge hd hsound.clash
    · rw [← hc, hheads]
      apply List.length_pos_iff.mp
      rw [length_rawFileHeader]
      omega
    · rw [← hc, hheads]
      exact importFile_header hd
  · obtain ⟨hc, htype, rfl⟩ : data = c.1 ∧ fileDataType = c.2 ∧ store = store' := by simpa using h
    refine ⟨hknows, fun hne => ⟨?_, hc ▸ hne, ?_⟩⟩
    · rw [← htype, ← hc]
      exact .file (Nat.not_lt.mp hlarge)
    · rw [← hc]
      exact (Nat.not_lt.mp hlarge).trans_lt (by decide)

private theorem prepare_directory {inner : List (Bytes × Tree)} {name : Bytes} {c : Bytes × UInt8}
    (hdirs : L.directories = rawDirectories) (hsub : Nested L C sub subContents)
    (h : prepare L fuel sub store (name, .directory inner) = some (c.1, c.2, store'))
    (hinner : ∀ c ∈ innerContents subContents store (name, .directory inner), c ∈ C) (hsound : Sound store'.disk)
    (hknows : Knows L C store) : Knows L C store' ∧ (PlainItem (name, .directory inner) →
      Prepared L store'.disk ((name, .directory inner), c)) := by
  simp only [prepare] at h
  split_ifs at h with hidden
  · obtain ⟨⟨d, store₁⟩, hd, hx⟩ := Option.bind_eq_some_iff.mp h
    obtain ⟨hc, htype, rfl⟩ : L.directories.pack d = c.1 ∧ directoryType = c.2 ∧ store₁ = store' := by simpa using hx
    rw [innerContents, if_pos hidden] at hinner
    obtain ⟨hknows', hdenotes⟩ := hsub store inner d store₁ hd hinner hsound hknows
    refine ⟨hknows', fun hitem => ?_⟩
    obtain ⟨hplain, -⟩ := hitem
    have hall := hdenotes hplain
    cases hplain with
    | directory hnames _ _ _ =>
      have hmax : MAX_CHUNK_SIZE < 2 ^ 35 := by decide
      rw [← hall.names] at hnames
      have hle : (rawDirectories.pack d).length ≤ 5 + ((d.map Entry.name).map fun name => name.length + 62).sum :=
        length_rawDirectories_le (by omega)
      have hcode : 0 < (Varint.encode d.length).length := List.length_pos_iff.mpr (Varint.encode_ne_nil _)
      have hge := length_rawDirectories d
      rw [hdirs] at hc
      refine ⟨?_, ?_, ?_⟩
      · rw [← htype, ← hc, ← hdirs]
        exact .directory hall
      · apply List.length_pos_iff.mp
        rw [← hc]
        omega
      · rw [← hc]
        omega
  · obtain ⟨-, -, rfl⟩ : [] = c.1 ∧ unknownType = c.2 ∧ store = store' := by simpa using h
    exact ⟨hknows, fun hitem => absurd (hitem.2 inner rfl) hidden⟩

private theorem prepare_prepared (hdirs : L.directories = rawDirectories) (hheads : L.fileHeaders = rawFileHeaders)
    (hsub : Nested L C sub subContents) {c : Bytes × UInt8} (h : prepare L fuel sub store item = some (c.1, c.2, store'))
    (hinner : ∀ c ∈ innerContents subContents store item, c ∈ C) (hsound : Sound store'.disk) (hknows : Knows L C store) :
    Knows L C store' ∧ (PlainItem item → Prepared L store'.disk (item, c)) := by
  obtain ⟨name, tree⟩ := item
  cases tree with
  | directory inner => exact prepare_directory hdirs hsub h hinner hsound hknows
  | file data =>
    obtain ⟨hknows', hprepared⟩ := prepare_file hheads h hsound hknows
    refine ⟨hknows', fun hitem => hprepared ?_⟩
    cases hitem.1 with
    | file hne => exact hne
  | other =>
    simp only [prepare] at h
    obtain ⟨-, -, rfl⟩ : [] = c.1 ∧ unknownType = c.2 ∧ store = store' := by simpa using h
    refine ⟨hknows, fun hitem => ?_⟩
    cases hitem.1

def Unmistakable (L : DirLib) (C : Set (Bytes × UInt8)) : Prop := C.InjOn fun c => L.sha1 c.1

/-- A turn leaves the entry of its item, unless its content is dropped. -/
theorem importItem_packed (hdirs : L.directories = rawDirectories) (hheads : L.fileHeaders = rawFileHeaders)
    (hsub : Nested L C sub subContents) (hC : Unmistakable L C) (h : importItem L fuel sub s item = some s')
    (hsound : Sound s'.store.disk) (hgrow : ∀ store items x, sub store items = some x → Extends L store x.2)
    (hcontents : ∀ c ∈ itemsContents L fuel sub subContents [item] s, c ∈ C) (hs : Packed L C done s) :
    ∃ added, Packed L C (done ++ added) s' ∧ (PlainItem item → added.map Prod.fst = [item]) := by
  obtain ⟨content, type, store, hprep, hcase⟩ := importItem_cases h
  have hext := prepare_extends hgrow hprep
  simp only [itemsContents, hprep, h, List.mem_append, List.mem_singleton] at hcontents
  have hstore : Grows store.disk s'.store.disk := by
    rcases hcase with ⟨ref, -, rfl⟩ | ⟨-, hadd⟩ | ⟨-, -, s₂, hsave, rfl⟩
    · exact .refl _
    · rw [addToChunk_store hadd]
      exact .refl _
    · rw [addToChunk_getD_store]
      exact (saveChunk_extends hsave).grows
  obtain ⟨hknows, hplain⟩ := prepare_prepared hdirs hheads hsub (c := (content, type)) hprep
    (fun c hc => hcontents c (.inl hc)) (hsound.of_grows hstore) hs.knows
  have hc : (content, type) ∈ C := hcontents _ (.inr rfl)
  have hready : Packed L C done { s with store := store } := hs.prepare hext.grows hknows
  rcases hcase with ⟨ref, hdb, rfl⟩ | ⟨-, hadd⟩ | ⟨-, -, s₁, hsave, rfl⟩
  · refine ⟨[(item, content, type)], ?_, fun _ => rfl⟩
    obtain ⟨c', hc', hkey, hrefers⟩ := hready.knows _ ref hdb
    obtain rfl : (content, type) = c' := hC hc hc' hkey
    have hsize : (s.chunk ++ []).length < MAX_CHUNK_SIZE := by
      rw [List.append_nil]
      exact hs.size
    have hconcat := hready.concat (p := (item, content, type)) (e := ⟨item.1, ref⟩) [] hsize ⟨hc, hplain⟩
      ⟨rfl, hrefers.found _⟩
    rwa [List.append_nil] at hconcat
  · exact ⟨[(item, content, type)], hready.add ⟨hc, hplain⟩ hadd, fun _ => rfl⟩
  · have hgrows := (saveChunk_extends hsave).grows
    rw [addToChunk_getD_store] at hsound
    have hsaved := hready.save hsave hsound
    cases hadd : addToChunk L.toLib { s₁ with chunk := [] } item.1 content type with
    | some s₂ =>
      refine ⟨[(item, content, type)], hsaved.add ⟨hc, fun hitem => (hplain hitem).grow hgrows⟩ hadd, fun _ => rfl⟩
    | none =>
      refine ⟨[], by rwa [List.append_nil], fun hitem => ?_⟩
      exact absurd (addToChunk_none hadd) (Nat.not_le.mpr (hplain hitem).fits)

/-- Every plain item gets the entry for its content. -/
theorem importItems_packed (hdirs : L.directories = rawDirectories) (hheads : L.fileHeaders = rawFileHeaders)
    (hsub : Nested L C sub subContents) (hC : Unmistakable L C)
    (hgrow : ∀ store items x, sub store items = some x → Extends L store x.2)
    (h : items.foldlM (importItem L fuel sub) s = some s') (hsound : Sound s'.store.disk)
    (hcontents : ∀ c ∈ itemsContents L fuel sub subContents items s, c ∈ C) (hs : Packed L C done s) :
    ∃ added, Packed L C (done ++ added) s' ∧ ((∀ item ∈ items, PlainItem item) → added.map Prod.fst = items) := by
  induction items generalizing s done with
  | nil =>
    obtain rfl := Option.some.inj h
    exact ⟨[], by rwa [List.append_nil], fun _ => rfl⟩
  | cons item rest ih =>
    rw [List.foldlM_cons] at h
    obtain ⟨s₁, hitem, hrest⟩ := Option.bind_eq_some_iff.mp h
    have hsound₁ := hsound.of_grows (importItems_extends hgrow hrest).grows
    obtain ⟨content, type, store, hprep, -⟩ := importItem_cases hitem
    simp only [itemsContents, hprep, hitem, List.mem_append, List.mem_cons] at hcontents
    obtain ⟨first, hfirst, hplain⟩ := importItem_packed hdirs hheads hsub hC hitem hsound₁ hgrow
      (by
        simp only [itemsContents, hprep, hitem, List.mem_append, List.mem_singleton]
        rintro c (hc | hc)
        · exact hcontents c (.inl hc)
        · exact hcontents c (.inr (.inl hc))) hs
    obtain ⟨added, hadded, hall⟩ := ih hrest (fun c hc => hcontents c (.inr (.inr hc))) hfirst
    refine ⟨first ++ added, by rwa [List.append_assoc] at hadded, fun hitems => ?_⟩
    rw [List.forall_mem_cons] at hitems
    rw [List.map_append, hplain hitems.1, hall hitems.2]
    rfl

end

/-! ### The end of an import -/

/-- Nothing is left to be saved. -/
theorem saveLast_packed (h : saveLast L.toLib fuel s = some s') (hsound : Sound s'.store.disk)
    (hs : Packed L C done s) : Packed L C done { s' with chunk := [] } := by
  rw [saveLast] at h
  split_ifs at h with hnil
  · obtain rfl := Option.some.inj h
    rwa [← hnil]
  · exact hs.save h hsound

theorem Packed.denotesAll (hs : Packed L C done { s with chunk := [] }) (hplain : ∀ p ∈ done, PlainItem p.1) :
    DenotesAll L s.store.disk (done.map Prod.fst) s.dir := by
  have hentries := hs.entries
  have hprepared (p) (hp : p ∈ done) : Prepared L s.store.disk p := (hs.prepared p hp).2 (hplain p hp)
  clear hs hplain
  dsimp only at hentries
  generalize s.dir = dir at hentries
  induction hentries with
  | nil => exact .nil
  | @cons p e done dir he _ ih =>
    obtain ⟨hname, hrefers⟩ := he
    have hp := hprepared p List.mem_cons_self
    obtain ⟨⟨name, tree⟩, content, type⟩ := p
    obtain rfl : e.name = name := hname
    obtain rfl : e.ref.type = type := hrefers.type
    exact .cons (hrefers.reads hp.ne_nil) hp.denotes (ih fun q hq => hprepared q (List.mem_cons_of_mem _ hq))

theorem Packed.content (hs : Packed L C done s) {e : Entry} (he : e ∈ s.dir) :
    ∃ c ∈ C, Refers L s.store.disk s.chunk e.ref c := by
  obtain ⟨i, hi, rfl⟩ := List.mem_iff_getElem.mp he
  have hi' : i < done.length := hs.entries.length_eq ▸ hi
  exact ⟨done[i].2, (hs.prepared _ (List.getElem_mem hi')).1, (hs.entries.get hi' hi).2⟩

/-- The entries are kept in the file database. -/
theorem storeRefs_knows {dir : List Entry} (hknows : Knows L C store)
    (hentries : ∀ e ∈ dir, ∃ c ∈ C, Refers L store.disk [] e.ref c) :
    Knows L C { store with fileDb := dir.foldl (fun db e => storeRef db e.ref) store.fileDb } := by
  induction dir generalizing store with
  | nil => exact hknows
  | cons e dir ih =>
    rw [List.forall_mem_cons] at hentries
    obtain ⟨⟨c, hc, hrefers⟩, hrest⟩ := hentries
    suffices hstored : Knows L C { store with fileDb := storeRef store.fileDb e.ref } from ih hstored hrest
    intro key r hr
    cases hold : store.fileDb e.ref.content with
    | some old =>
      simp only [storeRef, hold] at hr
      exact hknows key r hr
    | none =>
      simp only [storeRef, hold] at hr
      by_cases hkey : key = e.ref.content
      · subst hkey
        rw [Function.update_self] at hr
        obtain rfl := Option.some.inj hr
        exact ⟨c, hc, hrefers.hash, hrefers⟩
      · rw [Function.update_of_ne hkey] at hr
        exact hknows key r hr

private theorem importDirectory_nested (hdirs : L.directories = rawDirectories) (hheads : L.fileHeaders = rawFileHeaders)
    (hC : Unmistakable L C) (fuel : Nat) :
    Nested L C (importDirectory L fuel) (directoryContents L fuel) := by
  induction fuel with
  | zero =>
    intro store items dir store' h
    cases h
  | succ fuel ih =>
    intro store items dir store' h hcontents hsound hknows
    obtain ⟨s, s', hloop, hclose, rfl, rfl⟩ := importDirectory_eq h
    obtain ⟨done, hpacked, hitems⟩ := importItems_packed hdirs hheads ih hC (importDirectory_extends L fuel) hloop
      (hsound.of_grows (saveLast_extends hclose).grows) hcontents (.init hknows)
    have hlast := saveLast_packed hclose hsound hpacked
    refine ⟨storeRefs_knows hlast.knows fun e he => hlast.content he, fun hplain => ?_⟩
    cases hplain with
    | directory _ htrees _ hhidden =>
      have hall (item) (hi : item ∈ items) : PlainItem item :=
        ⟨htrees item.1 item.2 hi, fun inner he => hhidden item.1 inner (he ▸ hi)⟩
      obtain rfl := hitems hall
      exact hlast.denotesAll fun p hp => hall p.1 (List.mem_map_of_mem hp)

/-- What the file database has comes from the history. -/
theorem History.knows {cs : List (Bytes × UInt8)} (h : History L cs store) (hdirs : L.directories = rawDirectories)
    (hheads : L.fileHeaders = rawFileHeaders) (hC : Unmistakable L C) (hcs : ∀ c ∈ cs, c ∈ C) (hsound : Sound store.disk) :
    Knows L C store := by
  induction h with
  | nil rands => exact fun _ _ hr => nomatch hr
  | @chunk cs store head data _ ih =>
    have hgrows := storeChunk_grows L.toLib store.disk head data
    exact (ih hcs (hsound.of_grows hgrows)).grow hgrows _
  | rand rands _ ih => exact (ih hcs hsound).grow (.refl _) _
  | @directory cs store store' dir items fuel _ himport ih =>
    simp only [List.mem_append] at hcs
    have hgrows := (importDirectory_extends _ _ _ _ _ himport).grows
    have hknows := ih (fun c hc => hcs c (.inl hc)) (hsound.of_grows hgrows)
    exact (importDirectory_nested hdirs hheads hC fuel store items dir store' himport
      (fun c hc => hcs c (.inr hc)) hsound hknows).1

/-- The entries denote the items as soon as the import is done. -/
theorem importDirectory_denotes {cs : List (Bytes × UInt8)} {items : List (Bytes × Tree)} {dir : List Entry}
    (hdirs : L.directories = rawDirectories) (hheads : L.fileHeaders = rawFileHeaders) (hstore : History L cs store)
    (himport : importDirectory L fuel store items = some (dir, store')) (hplain : Plain (.directory items))
    (hdistinct : Distinct L (cs ++ directoryContents L fuel store items)) (hsound : Sound store'.disk) :
    DenotesAll L store'.disk items dir := by
  have hC : Unmistakable L { c | c ∈ cs ++ directoryContents L fuel store items } :=
    fun c hc c' hc' he => hdistinct c hc c' hc' he
  have hknows := hstore.knows hdirs hheads hC (fun c hc => List.mem_append_left _ hc)
    (hsound.of_grows (importDirectory_extends _ _ _ _ _ himport).grows)
  obtain ⟨-, hdenotes⟩ := importDirectory_nested hdirs hheads hC fuel store items dir store' himport
    (fun c hc => List.mem_append_right _ hc) hsound hknows
  exact hdenotes hplain

/-- Whatever was imported before: the entries of an imported directory refer to the contents of its items, and the
references of these to theirs, down to every file, the large ones in all their chunks. They still do when more was
stored since. -/
theorem directory_denoted {cs : List (Bytes × UInt8)} {items : List (Bytes × Tree)} {dir : List Entry}
    (hdirs : L.directories = rawDirectories) (hheads : L.fileHeaders = rawFileHeaders) (hstore : History L cs store)
    (himport : importDirectory L fuel store items = some (dir, store')) (hplain : Plain (.directory items))
    (hdistinct : Distinct L (cs ++ directoryContents L fuel store items)) (hgrows : Grows store'.disk disk)
    (hsound : Sound disk) : DenotesAll L disk items dir := by
  have hdenotes := importDirectory_denotes hdirs hheads hstore himport hplain hdistinct (hsound.of_grows hgrows)
  exact hdenotes.grow hgrows

/-- A hash under which the few contents of an example have different values. -/
def nestedLib : DirLib :=
  { namedLib with sha1 := fun bytes => bytes.foldl (fun h b => h * 257 + BitVec.ofNat 160 (b.toNat + 1)) 7 }

/-- A directory `d` with the file `b`, and a file `a`. -/
def nestedItems : List (Bytes × Tree) := [([100], .directory [([98], .file [1, 2, 3])]), ([97], .file [4])]

theorem nestedItems_plain : Plain (.directory nestedItems) := by
  have hinner : Plain (.directory [([98], .file [1, 2, 3])]) := by
    apply Plain.directory (by decide)
    · intro name tree hmem
      obtain ⟨rfl, rfl⟩ := Prod.mk.inj (List.mem_singleton.mp hmem)
      exact .file (by decide)
    · intro name tree hmem
      obtain ⟨rfl, -⟩ := Prod.mk.inj (List.mem_singleton.mp hmem)
      decide
    · intro name inner hmem
      cases List.mem_singleton.mp hmem
  apply Plain.directory (by decide)
  · intro name tree hmem
    rcases List.mem_cons.mp hmem with he | hmem
    · obtain ⟨rfl, rfl⟩ := Prod.mk.inj he
      exact hinner
    · obtain ⟨rfl, rfl⟩ := Prod.mk.inj (List.mem_singleton.mp hmem)
      exact .file (by decide)
  · intro name tree hmem
    rcases List.mem_cons.mp hmem with he | hmem
    · obtain ⟨rfl, -⟩ := Prod.mk.inj he
      decide
    · obtain ⟨rfl, -⟩ := Prod.mk.inj (List.mem_singleton.mp hmem)
      decide
  · intro name inner hmem
    rcases List.mem_cons.mp hmem with he | hmem
    · obtain ⟨rfl, -⟩ := Prod.mk.inj he
      decide
    · cases List.mem_singleton.mp hmem

theorem nested_distinct : Distinct nestedLib ([] ++ directoryContents nestedLib 3 namedStore nestedItems) := by
  decide +kernel

theorem directory_denoted_nested : ∃ dir store', importDirectory nestedLib 3 namedStore nestedItems = some (dir, store') ∧
    dir.length = 2 ∧ DenotesAll nestedLib store'.disk nestedItems dir := by
  have hsome : (importDirectory nestedLib 3 namedStore nestedItems).isSome = true := by decide +kernel
  have hlen : ((importDirectory nestedLib 3 namedStore nestedItems).map fun x => x.1.length) = some 2 := by decide +kernel
  have hzero : ((importDirectory nestedLib 3 namedStore nestedItems).map fun x => x.2.disk.files 0) = some none := by
    decide +kernel
  have hclash : ((importDirectory nestedLib 3 namedStore nestedItems).map fun x => x.2.disk.clash) = some false := by
    decide +kernel
  obtain ⟨⟨dir, store'⟩, himport⟩ := Option.isSome_iff_exists.mp hsome
  rw [himport] at hlen hzero hclash
  refine ⟨dir, store', himport, Option.some.inj hlen, ?_⟩
  exact directory_denoted rfl rfl (.nil _) himport nestedItems_plain nested_distinct (.refl _)
    ⟨Option.some.inj hclash, Option.some.inj hzero⟩

/-! ### Importing a file again -/

section
variable {L : Lib} {disk'' : Disk} {data file : Bytes} {l : Link}

/-- What is on the disk is not stored again. -/
theorem stored_again (hgrows : Grows (stored L disk data).2 disk') (hfree : disk'.clash = false) :
    stored L disk' data = ((stored L disk data).1, disk') := by
  have hold : Holds L disk' (stored L disk data).1 data := hgrows.files _ _ (stored_holds (hgrows.clash hfree))
  have hid : (stored L disk data).1 = calculateId L (sliceChunk L data) := by
    simp only [stored, storeChunk]
    split
    · rfl
    · rfl
  rw [Holds, hid] at hold
  rw [hid, stored, storeChunk, hold]
  simp

private theorem importLoop_again {size : Nat} {p : BitVec 32} {chunk input : Bytes} {chunks : List (Sha1 × UInt64)}
    {x : List (Sha1 × UInt64) × Disk} (h : importLoop L size fuel p chunk input chunks disk = some x)
    (hgrows : Grows x.2 disk') (hfree : disk'.clash = false) :
    importLoop L size fuel p chunk input chunks disk' = some (x.1, disk') := by
  induction fuel generalizing p chunk input chunks disk with
  | zero => cases h
  | succ fuel ih =>
    rw [importLoop] at h ⊢
    split_ifs at h ⊢ with hmore
    · obtain ⟨⟨tmp, seed⟩, hrand, hrest⟩ := Option.bind_eq_some_iff.mp h
      have hagain := stored_again ((importLoop_grows hrest).trans hgrows) hfree
      dsimp only
      rw [hrand]
      exact (congrArg (fun y => importLoop L size fuel _ _ _ (chunks ++ [(y.1, seed)]) y.2) hagain).trans (ih hrest)
    · obtain rfl := Option.some.inj h
      rfl

theorem storeTyped_grows (h : storeTyped L fuel disk data = some (l, disk')) : Grows disk disk' := by
  rw [storeTyped_eq] at h
  obtain ⟨⟨tmp, seed⟩, -, hl⟩ := Option.map_eq_some_iff.mp h
  obtain ⟨-, rfl⟩ := Prod.mk.inj hl
  exact stored_grows L disk tmp

private theorem storeTyped_again (h : storeTyped L fuel disk data = some (l, disk'')) (hgrows : Grows disk'' disk')
    (hfree : disk'.clash = false) : storeTyped L fuel disk' data = some (l, disk') := by
  rw [storeTyped_eq] at h ⊢
  obtain ⟨⟨tmp, seed⟩, hrand, hl⟩ := Option.map_eq_some_iff.mp h
  obtain ⟨rfl, rfl⟩ := Prod.mk.inj hl
  rw [hrand, Option.map_some, stored_again hgrows hfree]

/-- A file that is imported again, however many chunks it has and whatever else was stored since, gets the same link, and
the disk stays as it is. -/
theorem import_again (L : Lib) (fuel : Nat) (disk disk' later : Disk) (file : Bytes) (l : Link)
    (himport : «import» L fuel disk file = some (l, disk')) (hgrows : Grows disk' later) (hfree : later.clash = false) :
    «import» L fuel later file = some (l, later) := by
  rw [«import»] at himport ⊢
  split_ifs at himport ⊢ with hlarge
  · obtain ⟨⟨head, disk₁⟩, hfile, hrest⟩ := Option.bind_eq_some_iff.mp himport
    dsimp only at hrest
    split_ifs at hrest with hfits
    obtain ⟨⟨chunks, disk₂⟩, hloop, hx⟩ := Option.bind_eq_some_iff.mp hfile
    obtain ⟨rfl, rfl⟩ := Prod.mk.inj (Option.some.inj hx)
    have hagain : importFile L fuel later file = some (⟨UInt64.ofNat file.length, chunks⟩, later) := by
      rw [importFile, importLoop_again hloop ((storeTyped_grows hrest).trans hgrows) hfree]
      rfl
    rw [hagain]
    exact (if_pos hfits).trans (storeTyped_again hrest hgrows hfree)
  · exact storeTyped_again himport hgrows hfree

/-- A hash that tells chunks with different numbers of slices apart. -/
def lengthLib : Lib := { smallLib with sha1 := fun bytes => BitVec.ofNat 160 bytes.length }

def twoChunks : Bytes := List.replicate (MAX_CHUNK_SIZE + MIN_SLICE_SIZE + 1) 0

theorem calculateId_lengthLib (data : Bytes) {n : Nat} (hn : (data.length + (MIN_SLICE_SIZE - 1)) / MIN_SLICE_SIZE = n) :
    calculateId lengthLib (sliceChunk lengthLib data) = BitVec.ofNat 160 ((Varint.encode n).length + 24 * n) := by
  have hcount : (sliceChunk lengthLib data).length = n := by
    rw [sliceChunk, length_sliceLoop _ _ _ le_rfl, hn]
  have hpacked := length_rawChunkHeaders (sliceChunk lengthLib data)
  rw [hcount] at hpacked
  exact congrArg (BitVec.ofNat 160) hpacked

theorem stored_files_none {id : Sha1} (hne : id ≠ calculateId L (sliceChunk L data)) (hnone : disk.files id = none) :
    (stored L disk data).2.files id = none := by
  simp only [stored, storeChunk]
  split
  · exact hnone
  · exact (Function.update_of_ne hne _ _).trans hnone

/-- A file of more than one chunk and of two at most, where every data is random. -/
theorem importFile_double (hu : ∀ data, L.uniform data = true) (disk : Disk) (hmore : MAX_CHUNK_SIZE < file.length)
    (hfits : file.length ≤ 2 * MAX_CHUNK_SIZE) :
    ∃ first second seed seed', first.length = MAX_CHUNK_SIZE ∧ second.length = file.length - MAX_CHUNK_SIZE ∧
      importFile L 3 disk file =
        some (⟨UInt64.ofNat file.length, [((stored L disk first).1, seed),
          ((stored L (stored L disk first).2 second).1, seed')]⟩, (stored L (stored L disk first).2 second).2) := by
  have hmax : MAX_CHUNK_SIZE = 4194304 := rfl
  have hzero : (0 : BitVec 32).toNat = 0 := rfl
  have hn : min (List.replicate MAX_CHUNK_SIZE (0 : UInt8)).length (file.length - (0 : BitVec 32).toNat) =
      MAX_CHUNK_SIZE := by
    rw [List.length_replicate]
    omega
  have hdrop : (file.drop MAX_CHUNK_SIZE).length = file.length - MAX_CHUNK_SIZE := List.length_drop
  obtain ⟨tmp, seed, hrand⟩ : ∃ tmp seed, randomize L 2
      (file.take MAX_CHUNK_SIZE ++ (List.replicate MAX_CHUNK_SIZE 0).drop MAX_CHUNK_SIZE)
      (seedOf (L.sha1 (file.take MAX_CHUNK_SIZE ++ (List.replicate MAX_CHUNK_SIZE 0).drop MAX_CHUNK_SIZE))) =
        some (tmp, seed) := ⟨_, _, randomize_uniform hu 1 _ _⟩
  have htmp : (tmp.take MAX_CHUNK_SIZE).length = MAX_CHUNK_SIZE := by
    rw [List.length_take, length_randomize hrand, List.length_append, List.length_take]
    omega
  obtain ⟨second, seed', hlen, hloop⟩ := importLoop_last hu file.length MAX_CHUNK_SIZE (tmp.take MAX_CHUNK_SIZE)
    (file.drop MAX_CHUNK_SIZE) ([] ++ [((stored L disk (tmp.take MAX_CHUNK_SIZE)).1, seed)])
    (stored L disk (tmp.take MAX_CHUNK_SIZE)).2 (by omega) (by omega) (by omega) (by omega)
  refine ⟨tmp.take MAX_CHUNK_SIZE, second, seed, seed', htmp, hlen.trans hdrop, ?_⟩
  rw [importFile, importLoop_succ (by omega) hn (by omega) hrand]
  exact congrArg (Option.bind · _) (hloop 0)

theorem import_twoChunks : ∃ l disk', «import» lengthLib 3 {} twoChunks = some (l, disk') ∧ disk'.clash = false := by
  have hslice : MIN_SLICE_SIZE = 65536 := rfl
  have hmax : MAX_CHUNK_SIZE = 4194304 := rfl
  have hlen : twoChunks.length = MAX_CHUNK_SIZE + MIN_SLICE_SIZE + 1 := List.length_replicate
  have hcodes : (Varint.encode 1).length = 1 ∧ (Varint.encode 2).length = 1 ∧ (Varint.encode 64).length = 1 := by decide
  obtain ⟨first, second, seed, seed', hfirst, hsecond, hfile⟩ := importFile_double (L := lengthLib)
    (fun _ => rfl) {} (show MAX_CHUNK_SIZE < twoChunks.length by omega) (by omega)
  rw [«import», if_pos (by rw [hlen]; decide), hfile]
  generalize hhead : (⟨UInt64.ofNat twoChunks.length, [((stored lengthLib {} first).1, seed),
    ((stored lengthLib (stored lengthLib {} first).2 second).1, seed')]⟩ : FileHeader) = head
  have hpacked : (rawFileHeaders.pack head).length = 65 := by
    rw [length_rawFileHeaders, ← hhead]
    exact congrArg (fun n => 8 + n + 28 * 2) hcodes.2.1
  obtain ⟨tmp, seed'', hrand⟩ : ∃ tmp seed'', randomize lengthLib 3 (headerBuffer (rawFileHeaders.pack head))
      (seedOf (lengthLib.sha1 (headerBuffer (rawFileHeaders.pack head)))) = some (tmp, seed'') :=
    ⟨_, _, randomize_uniform (fun _ => rfl) 2 _ _⟩
  have htmp : tmp.length = 65 := by rw [length_randomize hrand, length_headerBuffer, hpacked]
  have hid₁ : calculateId lengthLib (sliceChunk lengthLib first) = 1537 := by
    rw [calculateId_lengthLib first (n := 64) (by rw [hslice]; omega), hcodes.2.2]
    rfl
  have hid₂ : calculateId lengthLib (sliceChunk lengthLib second) = 49 := by
    rw [calculateId_lengthLib second (n := 2) (by rw [hslice]; omega), hcodes.2.1]
    rfl
  have hid₃ : calculateId lengthLib (sliceChunk lengthLib tmp) = 25 := by
    rw [calculateId_lengthLib tmp (n := 1) (by rw [hslice]; omega), hcodes.1]
    rfl
  refine ⟨⟨(stored lengthLib (stored lengthLib (stored lengthLib {} first).2 second).2 tmp).1, seed''⟩,
    (stored lengthLib (stored lengthLib (stored lengthLib {} first).2 second).2 tmp).2, ?_, ?_⟩
  · have hfits : (lengthLib.fileHeaders.pack head).length ≤ MAX_CHUNK_SIZE - 1 := hpacked.trans_le (by decide)
    refine (if_pos hfits).trans ?_
    rw [storeTyped_eq]
    exact congrArg (Option.map _) hrand
  · rw [stored_clash, stored_clash, stored_clash]
    · rfl
    · rw [hid₂]
      exact stored_files_none (by rw [hid₁]; decide) rfl
    · rw [hid₃]
      apply stored_files_none (by rw [hid₂]; decide)
      exact stored_files_none (by rw [hid₁]; decide) rfl

theorem import_again_twoChunks : ∃ l disk', «import» lengthLib 3 {} twoChunks = some (l, disk') ∧
    «import» lengthLib 3 disk' twoChunks = some (l, disk') := by
  obtain ⟨l, disk', himport, hfree⟩ := import_twoChunks
  exact ⟨l, disk', himport, import_again lengthLib 3 {} disk' disk' twoChunks l himport (.refl _) hfree⟩

end

end Tornet.Cafs
