import Tornet.Cafs.Vectors
import Tornet.Chunk.Service

/-! Which chunks that `cafs` makes a peer takes: `randomize` sees to their randomness, and nothing to their size. -/
namespace Tornet.Chunk
open Library Cafs Keystream

/-- `store_chunk` may be given the data, and no peer refuses it for what it is. -/
def Publishable (L : Lib) (data : Bytes) : Prop :=
  isRandom L data = true ∧
    ∀ now db, (store L now db data).1 ≠ .dataNotRandom ∧ (store L now db data).1 ≠ .invalidSize

/-! ### When the data of an import is publishable -/

/-- The buffer of `import_file` in its first turn, after the read. -/
def firstBuffer (file : Bytes) : Bytes :=
  file.take (min MAX_CHUNK_SIZE file.length) ++
    (List.replicate MAX_CHUNK_SIZE 0).drop (min MAX_CHUNK_SIZE file.length)

/-- What `randomize` makes of it. -/
def randomizeFirst (L : Lib) (fuel : Nat) (file : Bytes) : Option (Bytes × UInt64) :=
  randomize L (fuel - 1) (firstBuffer file) (seedOf (L.sha1 (firstBuffer file)))

/-- For `import_file`: the file is small, and is shorter than the threshold of the test. From there on the test, which the
whole buffer has passed, can fail for the part of it that is kept. -/
def FileLight (L : Lib) (fuel : Nat) (file : Bytes) : Prop :=
  ∀ tmp seed, randomizeFirst L fuel file = some (tmp, seed) →
    file.length ≤ 1024 * 1024 ∧ (file.length < RAND_THRESHOLD ∨ L.uniform (tmp.take file.length) = true)

section
variable (L : DirLib) (fuel : Nat) (sub : Store → List (Bytes × Tree) → Option (List Entry × Store))
  (subLight : Store → List (Bytes × Tree) → Prop)

/-- For an item of a directory: it is no large file, and the directory in it is light. -/
def itemLight (store : Store) : Bytes × Tree → Prop
  | (name, .directory items) => name.head? ≠ some 46 → subLight store items
  | (_, .file data) => data.length ≤ 1024 * 1024 ∨ randomizeFirst L.toLib fuel data = none
  | (_, .other) => True

/-- For the items that are reached, each with the store as it is then. -/
def itemsLight : List (Bytes × Tree) → Packing → Prop
  | [], _ => True
  | item :: rest, s =>
    itemLight L fuel subLight s.store item ∧ ∀ s', importItem L fuel sub s item = some s' → itemsLight rest s'

end

/-- For `import_directory`: its items are light, and the contents that are packed make no chunk above the limit of a
peer. The last chunk counts where the import returns. -/
def DirectoryLight (L : DirLib) : Nat → Store → List (Bytes × Tree) → Prop
  | 0, _, _ => True
  | fuel + 1, store, items =>
    itemsLight L fuel (importDirectory L fuel) (DirectoryLight L fuel) items { store := store } ∧
      (∀ n ∈ (packs 0 (importTurns L fuel store items)).1, n ≤ 1024 * 1024) ∧
        ((importDirectory L (fuel + 1) store items).isSome = true →
          (packs 0 (importTurns L fuel store items)).2 ≤ 1024 * 1024)

/-- For `import`: the file, or the packed directory, leaves room for its type byte. -/
def PathLight (L : DirLib) (fuel : Nat) (store : Store) : Tree → Prop
  | .file data =>
    data.length < 1024 * 1024 ∨
      if IMBED_THRESHOLD < data.length then randomizeFirst L.toLib fuel data = none
      else randomize L.toLib fuel (fileDataType :: data) (seedOf (L.sha1 (fileDataType :: data))) = none
  | .directory items =>
    DirectoryLight L fuel store items ∧
      ∀ dir store', importDirectory L fuel store items = some (dir, store') →
        (L.directories.pack dir).length ≤ MAX_CHUNK_SIZE - 1 →
          (L.directories.pack dir).length < 1024 * 1024 ∨
            randomize L.toLib fuel (directoryType :: L.directories.pack dir)
              (seedOf (L.sha1 (directoryType :: L.directories.pack dir))) = none
  | .other => True

/-- A call of `import`, `import_file` or `import_directory`. -/
inductive Import where
  | path (t : Tree)
  | file (data : Bytes)
  | directory (items : List (Bytes × Tree))

/-- The data it passes to `store_chunk`. -/
def Import.vectors (L : DirLib) (fuel : Nat) (store : Store) : Import → List Bytes
  | .path t => pathVectors L fuel store t
  | .file data => fileVectors L.toLib fuel data
  | .directory items => directoryVectors L fuel store items

def Import.Light (L : DirLib) (fuel : Nat) (store : Store) : Import → Prop
  | .path t => PathLight L fuel store t
  | .file data => FileLight L.toLib fuel data
  | .directory items => DirectoryLight L fuel store items

/-! ### Single chunks -/

theorem publishable_iff {L : Lib} {data : Bytes} :
    Publishable L data ↔ isRandom L data = true ∧ data.length ≤ 1024 * 1024 := by
  rw [Publishable, and_congr_right_iff]
  intro hrand
  simp only [store, hrand, Bool.true_eq_false, if_false]
  constructor
  · intro h
    by_contra hlen
    have hrefused := (h 0 ⟨0, fun _ => none⟩).2
    rw [if_pos (Nat.not_le.mp hlen)] at hrefused
    exact hrefused rfl
  · intro hlen now db
    rw [if_neg (Nat.not_lt.mpr hlen)]
    exact ⟨by simp, by simp⟩

variable {L : DirLib} {fuel : Nat}

private theorem isRandom_randomize {L : Lib} {data tmp : Bytes} {seed seed' : UInt64}
    (h : randomize L fuel data seed = some (tmp, seed')) : isRandom L tmp = true := by
  induction fuel generalizing seed with
  | zero => cases h
  | succ fuel ih =>
    rw [randomize] at h
    split_ifs at h with hrand
    · obtain ⟨rfl, rfl⟩ := Prod.mk.inj (Option.some.inj h)
      exact hrand
    · exact ih h

/-- Data that is stored as `randomize` returns it is publishable exactly if it is short, or never returned. -/
theorem randomized_publishable_iff {L : Lib} {data : Bytes} {seed : UInt64} :
    (∀ v ∈ randomized L fuel data seed, Publishable L v) ↔
      ((randomize L fuel data seed).isSome = true → data.length ≤ 1024 * 1024) := by
  cases hrand : randomize L fuel data seed with
  | none => simp [randomized, hrand]
  | some r =>
    have hlen := length_randomize hrand
    have hrandom := isRandom_randomize hrand
    simp [randomized, hrand, publishable_iff, hlen, hrandom]

/-! ### Files -/

section
variable {L : Lib} {file : Bytes}

theorem length_firstBuffer (file : Bytes) : (firstBuffer file).length = MAX_CHUNK_SIZE := by
  rw [firstBuffer, List.length_append, List.length_take, List.length_drop, List.length_replicate]
  omega

private theorem min_buffer (file : Bytes) :
    min (List.replicate MAX_CHUNK_SIZE (0 : UInt8)).length (file.length - (0 : BitVec 32).toNat) =
      min MAX_CHUNK_SIZE file.length := by
  rw [List.length_replicate]
  rfl

private theorem randomizeFirst_zero (L : Lib) (file : Bytes) : randomizeFirst L 0 file = none := rfl

/-- The first turn of `import_file`, for a file with something in it. -/
theorem fileVectors_succ (hne : file ≠ []) (turns : Nat) :
    fileVectors L (turns + 1) file =
      match randomizeFirst L (turns + 1) file with
      | none => []
      | some (tmp, _) =>
        tmp.take (min MAX_CHUNK_SIZE file.length) ::
          loopVectors L file.length turns (0 + BitVec.ofNat 32 (min MAX_CHUNK_SIZE file.length))
            (tmp.take (min MAX_CHUNK_SIZE file.length)) (file.drop (min MAX_CHUNK_SIZE file.length)) := by
  have hpos : (0 : BitVec 32).toNat < file.length := List.length_pos_iff.mpr hne
  rw [fileVectors, loopVectors, if_pos hpos]
  simp only [min_buffer, Nat.min_eq_left (Nat.min_le_right MAX_CHUNK_SIZE file.length)]
  rfl

theorem loopVectors_end {size turns : Nat} {r : BitVec 32} {chunk input : Bytes} (h : size ≤ r.toNat) :
    loopVectors L size turns r chunk input = [] := by
  cases turns with
  | zero => rfl
  | succ turns => rw [loopVectors, if_neg (Nat.not_lt.mpr h)]

private theorem fileVectors_none (h : randomizeFirst L fuel file = none) : fileVectors L fuel file = [] := by
  cases fuel with
  | zero => rfl
  | succ turns =>
    by_cases hne : file = []
    · rw [hne]
      exact loopVectors_end (Nat.zero_le _)
    · rw [fileVectors_succ hne, h]

/-- The first chunk is the start of the buffer, and where the file ends in it there is no other. -/
theorem fileVectors_some {tmp : Bytes} {seed : UInt64} (hne : file ≠ [])
    (h : randomizeFirst L fuel file = some (tmp, seed)) :
    tmp.length = MAX_CHUNK_SIZE ∧
      ∃ rest, fileVectors L fuel file = tmp.take (min MAX_CHUNK_SIZE file.length) :: rest ∧
        (file.length ≤ MAX_CHUNK_SIZE → rest = []) := by
  cases fuel with
  | zero => cases (randomizeFirst_zero L file).symm.trans h
  | succ turns =>
    refine ⟨(length_randomize h).trans (length_firstBuffer file), _, by rw [fileVectors_succ hne, h], fun hle => ?_⟩
    have hmax : MAX_CHUNK_SIZE < 2 ^ 32 := by decide
    apply loopVectors_end
    rw [Nat.min_eq_right hle, show (0 : BitVec 32) + BitVec.ofNat 32 file.length = BitVec.ofNat 32 file.length from
      BitVec.zero_add _, toNat_pos (by omega)]

theorem fileVectors_publishable_iff : (∀ v ∈ fileVectors L fuel file, Publishable L v) ↔ FileLight L fuel file := by
  have hlimit : 1024 * 1024 < MAX_CHUNK_SIZE := by decide
  cases hfirst : randomizeFirst L fuel file with
  | none => simp [FileLight, hfirst, fileVectors_none hfirst]
  | some r =>
    obtain ⟨tmp, seed⟩ := r
    have hlight : FileLight L fuel file ↔ file.length ≤ 1024 * 1024 ∧ isRandom L (tmp.take file.length) = true := by
      have hlen : tmp.length = MAX_CHUNK_SIZE := (length_randomize hfirst).trans (length_firstBuffer file)
      have hone : FileLight L fuel file ↔ file.length ≤ 1024 * 1024 ∧
          (file.length < RAND_THRESHOLD ∨ L.uniform (tmp.take file.length) = true) := by
        simp [FileLight, hfirst]
      rw [hone]
      apply and_congr_right
      intro hsmall
      rw [isRandom, List.length_take, Nat.min_eq_left (by omega), Bool.or_eq_true, decide_eq_true_eq]
    rw [hlight]
    by_cases hne : file = []
    · subst hne
      have hnone : fileVectors L fuel [] = [] := loopVectors_end (Nat.zero_le _)
      simp [hnone, isRandom, RAND_THRESHOLD]
    · obtain ⟨htmp, rest, hvectors, hrest⟩ := fileVectors_some hne hfirst
      rw [hvectors]
      constructor
      · intro h
        obtain ⟨hrandom, hlen⟩ := publishable_iff.mp (h _ List.mem_cons_self)
        rw [List.length_take, htmp] at hlen
        have hshort : file.length ≤ MAX_CHUNK_SIZE := by omega
        rw [Nat.min_eq_right hshort] at hrandom
        exact ⟨by omega, hrandom⟩
      · rintro ⟨hlen, hrandom⟩
        have hshort : file.length ≤ MAX_CHUNK_SIZE := by omega
        rw [hrest hshort, Nat.min_eq_right hshort, List.forall_mem_singleton, publishable_iff]
        exact ⟨hrandom, (List.length_take_le _ _).trans hlen⟩

private theorem importFile_none {disk : Disk} (hne : file ≠ []) (h : randomizeFirst L fuel file = none) :
    importFile L fuel disk file = none := by
  cases fuel with
  | zero => rfl
  | succ turns =>
    have hpos : (0 : BitVec 32).toNat < file.length := List.length_pos_iff.mpr hne
    have hloop : importLoop L file.length (turns + 1) 0 (List.replicate MAX_CHUNK_SIZE 0) file [] disk = none := by
      rw [importLoop, if_pos hpos]
      simp only [randomizeFirst, firstBuffer, Nat.add_sub_cancel] at h
      simp only [min_buffer, Nat.min_eq_left (Nat.min_le_right MAX_CHUNK_SIZE file.length), h]
      rfl
    rw [importFile, hloop]
    rfl

/-- A file that is too large to be embedded is too large for a peer. -/
theorem fileLight_large (hlarge : 1024 * 1024 < file.length) :
    FileLight L fuel file ↔ randomizeFirst L fuel file = none := by
  constructor
  · intro h
    cases hfirst : randomizeFirst L fuel file with
    | none => rfl
    | some r => exact absurd (h r.1 r.2 hfirst).1 (by omega)
  · intro h tmp seed hsome
    cases h.symm.trans hsome

end

/-! ### Directories -/

section
variable {sub : Store → List (Bytes × Tree) → Option (List Entry × Store)}
  {subVectors : Store → List (Bytes × Tree) → List Bytes} {subLight : Store → List (Bytes × Tree) → Prop}
  {s s' : Packing} {item : Bytes × Tree}

private theorem addToChunk_length {L : Lib} {name content : Bytes} {type : UInt8}
    (h : addToChunk L s name content type = some s') :
    content.length < MAX_CHUNK_SIZE - s.chunk.length ∧ s'.chunk.length = s.chunk.length + content.length := by
  rw [addToChunk] at h
  split_ifs at h with hfits
  obtain rfl := Option.some.inj h
  exact ⟨hfits, List.length_append⟩

/-- A new chunk begins with the content, if there is room for it at all. -/
theorem addToChunk_fresh (L : Lib) (s : Packing) (name content : Bytes) (type : UInt8) :
    ((addToChunk L { s with chunk := [] } name content type).getD { s with chunk := [] }).chunk.length =
      if content.length < MAX_CHUNK_SIZE then content.length else 0 := by
  cases hadd : addToChunk L { s with chunk := [] } name content type with
  | some s' =>
    obtain ⟨hfits, hlen⟩ := addToChunk_length hadd
    have hroom : content.length < MAX_CHUNK_SIZE := hfits
    rw [Option.getD_some, hlen, if_pos hroom]
    exact Nat.zero_add _
  | none =>
    have hfull : MAX_CHUNK_SIZE ≤ content.length := addToChunk_none hadd
    rw [if_neg (Nat.not_lt.mpr hfull)]
    rfl

theorem saveChunk_isSome (L : Lib) (fuel : Nat) (s : Packing) :
    (saveChunk L fuel s).isSome = (randomize L fuel s.chunk (s.store.rands 0)).isSome := by
  cases h : randomize L fuel s.chunk (s.store.rands 0) <;> simp [saveChunk, h]

/-- What a turn does to the size of the chunk, and what it saves. -/
theorem importItem_sizes (subVectors : Store → List (Bytes × Tree) → List Bytes)
    (h : importItem L fuel sub s item = some s') :
    ∃ t full, (∀ rest, turns L fuel sub (item :: rest) s = t :: turns L fuel sub rest s') ∧
      itemVectors L fuel sub subVectors s item = prepareVectors L fuel subVectors s.store item ++ full ∧
      (t.found.isSome = true ∧ s'.chunk.length = s.chunk.length ∧ full = [] ∨
        t.found.isSome = false ∧ t.size < MAX_CHUNK_SIZE - s.chunk.length ∧
          s'.chunk.length = s.chunk.length + t.size ∧ full = [] ∨
        t.found.isSome = false ∧ ¬ t.size < MAX_CHUNK_SIZE - s.chunk.length ∧
          s'.chunk.length = (if t.size < MAX_CHUNK_SIZE then t.size else 0) ∧
            ((∀ v ∈ full, Publishable L.toLib v) ↔ s.chunk.length ≤ 1024 * 1024)) := by
  obtain ⟨content, type, store, hprep, hcase⟩ := importItem_cases h
  refine ⟨⟨content.length, store.fileDb (L.sha1 content)⟩,
    fullVectors L fuel { s with store := store } item.1 content type, fun rest => ?_, ?_, ?_⟩
  · rw [turns]
    simp only [hprep, h]
  · simp only [itemVectors, hprep]
  · rcases hcase with ⟨ref, hdb, rfl⟩ | ⟨hdb, hadd⟩ | ⟨hdb, hfull, s₁, hsave, rfl⟩
    · exact .inl ⟨by rw [hdb]; rfl, rfl, by simp only [fullVectors, hdb]⟩
    · obtain ⟨hfits, hlen⟩ := addToChunk_length hadd
      exact .inr (.inl ⟨by rw [hdb]; rfl, hfits, hlen, by simp only [fullVectors, hdb, hadd]⟩)
    · have hlarge := addToChunk_none hfull
      have hsome : (randomize L.toLib fuel s.chunk (store.rands 0)).isSome = true := by
        have hsaved := saveChunk_isSome L.toLib fuel { s with store := store }
        rw [hsave] at hsaved
        exact hsaved.symm
      refine .inr (.inr ⟨by rw [hdb]; rfl, Nat.not_lt.mpr hlarge, addToChunk_fresh _ _ _ _ _, ?_⟩)
      simp only [fullVectors, hdb, hfull]
      rw [randomized_publishable_iff, imp_iff_right hsome]

/-- A turn that does not end has saved no chunk. -/
theorem importItem_none (subVectors : Store → List (Bytes × Tree) → List Bytes)
    (h : importItem L fuel sub s item = none) :
    itemVectors L fuel sub subVectors s item = prepareVectors L fuel subVectors s.store item := by
  rw [itemVectors]
  cases hprep : prepare L fuel sub s.store item with
  | none => exact List.append_nil _
  | some x =>
    obtain ⟨content, type, store⟩ := x
    simp only [importItem, hprep, Option.bind_eq_bind, Option.bind_some] at h
    have hnothing : fullVectors L fuel { s with store := store } item.1 content type = [] := by
      cases hdb : store.fileDb (L.sha1 content) with
      | some ref => simp only [fullVectors, hdb]
      | none =>
        simp only [hdb] at h
        cases hadd : addToChunk L.toLib { s with store := store } item.1 content type with
        | some s₁ => simp only [fullVectors, hdb, hadd]
        | none =>
          -- the chunk is to be saved, and `randomize` does not end
          simp only [hadd, Option.bind_eq_none_iff] at h
          have hsave := saveChunk_isSome L.toLib fuel { s with store := store }
          cases hsaved : saveChunk L.toLib fuel { s with store := store } with
          | some s₁ => cases h s₁ hsaved
          | none =>
            rw [hsaved] at hsave
            have hrand := Option.isSome_eq_false_iff.mp hsave.symm
            simp only [fullVectors, hdb, hadd, randomized]
            rw [Option.isNone_iff_eq_none.mp hrand]
            rfl
    simp only [hnothing, List.append_nil]

variable (hsub : ∀ store items, (∀ v ∈ subVectors store items, Publishable L.toLib v) ↔ subLight store items)
include hsub

theorem prepareVectors_publishable_iff {store : Store} :
    (∀ v ∈ prepareVectors L fuel subVectors store item, Publishable L.toLib v) ↔
      itemLight L fuel subLight store item := by
  obtain ⟨name, tree⟩ := item
  cases tree with
  | directory items =>
    simp only [prepareVectors, itemLight]
    split_ifs with hidden
    · rw [hsub, imp_iff_right hidden]
    · exact iff_of_true (by simp) fun h => absurd h hidden
  | file data =>
    simp only [prepareVectors, itemLight]
    split_ifs with hlarge
    · rw [fileVectors_publishable_iff, fileLight_large hlarge]
      exact (or_iff_right (Nat.not_le.mpr hlarge)).symm
    · exact iff_of_true (by simp) (.inl (Nat.not_lt.mp hlarge))
  | other => simp [prepareVectors, itemLight]

omit hsub in
theorem lastVectors_publishable_iff (s : Packing) :
    (∀ v ∈ lastVectors L fuel s, Publishable L.toLib v) ↔
      ((saveLast L.toLib fuel s).isSome = true → s.chunk.length ≤ 1024 * 1024) := by
  rw [lastVectors, saveLast]
  split_ifs with hnil
  · exact iff_of_true (by simp) fun _ => by simp [hnil]
  · rw [randomized_publishable_iff, saveChunk_isSome]

/-- From a turn on, all data is publishable exactly if the items are light and the chunks that are packed are small. -/
theorem itemsVectors_publishable_iff (items : List (Bytes × Tree)) (s : Packing) :
    (∀ v ∈ itemsVectors L fuel sub subVectors items s, Publishable L.toLib v) ↔
      itemsLight L fuel sub subLight items s ∧
        (∀ n ∈ (packs s.chunk.length (turns L fuel sub items s)).1, n ≤ 1024 * 1024) ∧
          ((items.foldlM (importItem L fuel sub) s >>= saveLast L.toLib fuel).isSome = true →
            (packs s.chunk.length (turns L fuel sub items s)).2 ≤ 1024 * 1024) := by
  induction items generalizing s with
  | nil =>
    have hlast : (∀ v ∈ lastVectors L fuel s, Publishable L.toLib v) ↔ _ := lastVectors_publishable_iff s
    simpa [itemsVectors, itemsLight, turns, packs] using hlast
  | cons item rest ih =>
    have hprep : (∀ v ∈ prepareVectors L fuel subVectors s.store item, Publishable L.toLib v) ↔
        itemLight L fuel subLight s.store item := prepareVectors_publishable_iff hsub
    rw [itemsVectors, List.forall_mem_append, List.foldlM_cons, bind_assoc, itemsLight]
    cases hitem : importItem L fuel sub s item with
    | none =>
      have hturns : turns L fuel sub (item :: rest) s = [] := by
        rw [turns, hitem]
        cases prepare L fuel sub s.store item <;> rfl
      rw [importItem_none subVectors hitem, hprep, hturns]
      simp [packs]
    | some s' =>
      obtain ⟨t, full, hturns, hvectors, hcase⟩ := importItem_sizes subVectors hitem
      have hrest := ih s'
      rw [hvectors, List.forall_mem_append, hprep, hturns, packs]
      simp only [hrest, Option.bind_eq_bind, Option.bind_some, Option.some.injEq, forall_eq']
      rcases hcase with ⟨hfound, hlen, rfl⟩ | ⟨hfound, hfits, hlen, rfl⟩ | ⟨hfound, hfull, hlen, hpub⟩
      · rw [if_pos hfound, hlen]
        simp [and_assoc]
      · rw [hfound, if_neg Bool.false_ne_true, if_pos hfits, hlen]
        simp [and_assoc]
      · rw [hfound, if_neg Bool.false_ne_true, if_neg hfull, hlen, hpub]
        simp only [List.forall_mem_cons]
        tauto

end

/-- By induction on how deep directories lie in each other. -/
theorem directoryVectors_publishable_iff (L : DirLib) (fuel : Nat) (store : Store) (items : List (Bytes × Tree)) :
    (∀ v ∈ directoryVectors L fuel store items, Publishable L.toLib v) ↔ DirectoryLight L fuel store items := by
  induction fuel generalizing store items with
  | zero => simp [directoryVectors, DirectoryLight]
  | succ fuel ih =>
    have himport : (importDirectory L (fuel + 1) store items).isSome =
        (items.foldlM (importItem L fuel (importDirectory L fuel)) { store := store } >>=
          saveLast L.toLib fuel).isSome := by
      rw [importDirectory]
      cases hloop : items.foldlM (importItem L fuel (importDirectory L fuel)) { store := store } with
      | none => rfl
      | some s => cases hlast : saveLast L.toLib fuel s <;> simp [hlast]
    rw [directoryVectors, itemsVectors_publishable_iff ih, DirectoryLight, himport]
    rfl

/-! ### Imports -/

/-- The chunk that `import` makes last, of data behind a type byte. -/
theorem typedVectors_publishable_iff {L : Lib} {type : UInt8} {data : Bytes} :
    (∀ v ∈ typedVectors L fuel (type :: data), Publishable L v) ↔
      data.length < 1024 * 1024 ∨
        randomize L fuel (type :: data) (seedOf (L.sha1 (type :: data))) = none := by
  rw [typedVectors, randomized_publishable_iff, List.length_cons, Nat.succ_le_iff]
  cases randomize L fuel (type :: data) (seedOf (L.sha1 (type :: data))) with
  | none => exact iff_of_true (fun h => absurd h Bool.false_ne_true) (.inr rfl)
  | some r => simp

theorem pathVectors_publishable_iff (L : DirLib) (fuel : Nat) (store : Store) (t : Tree) :
    (∀ v ∈ pathVectors L fuel store t, Publishable L.toLib v) ↔ PathLight L fuel store t := by
  cases t with
  | file data =>
    rw [pathVectors, PathLight]
    split_ifs with hlarge
    · have hno : ¬ data.length < 1024 * 1024 := Nat.not_lt.mpr (Nat.le_of_lt hlarge)
      rw [List.forall_mem_append, fileVectors_publishable_iff, fileLight_large hlarge, or_iff_right hno]
      refine and_iff_left_of_imp fun hfirst => ?_
      have hne : data ≠ [] := List.length_pos_iff.mp (Nat.zero_lt_of_lt hlarge)
      rw [importFile_none hne hfirst]
      simp
    · exact typedVectors_publishable_iff
  | directory items =>
    rw [pathVectors, PathLight, List.forall_mem_append, directoryVectors_publishable_iff]
    refine and_congr_right fun _ => ?_
    cases hdir : importDirectory L fuel store items with
    | none => simp
    | some x =>
      obtain ⟨dir, store'⟩ := x
      simp only [Option.some.injEq, Prod.mk.injEq, and_imp]
      split_ifs with hfits
      · rw [typedVectors_publishable_iff]
        simp [hfits]
      · simp [hfits]
  | other => simp [pathVectors, PathLight]

/-- An import of a path, a file or a directory passes only publishable data to `store_chunk` if and only if it is
light. -/
theorem import_publishable_iff (L : DirLib) (fuel : Nat) (store : Store) (i : Import) :
    (∀ v ∈ i.vectors L fuel store, Publishable L.toLib v) ↔ i.Light L fuel store := by
  cases i with
  | path t => exact pathVectors_publishable_iff L fuel store t
  | file data => exact fileVectors_publishable_iff
  | directory items => exact directoryVectors_publishable_iff L fuel store items

/-- A test that whole buffers pass, and nothing shorter from the threshold on. -/
def wholeLib : DirLib := { namedLib with uniform := fun data => data.length == MAX_CHUNK_SIZE }

private theorem randomize_whole {data : Bytes} (h : data.length = MAX_CHUNK_SIZE) (fuel : Nat) (seed : UInt64) :
    ∃ r, randomize wholeLib.toLib (fuel + 1) data seed = some r := by
  refine ⟨_, if_pos ?_⟩
  have hlen : (xorWords (wholeLib.mt19937 (seed + 1)) 0 data).length = MAX_CHUNK_SIZE := by
    rw [xorWords_eq, List.length_mapIdx, h]
  rw [isRandom, Bool.or_eq_true]
  exact .inr (beq_iff_eq.mpr hlen)

/-- A file of one mebibyte makes a chunk one byte too large for a peer, and a smaller one may be kept of a randomized
buffer that is not random without its end. -/
theorem not_publishable :
    (¬ ∀ v ∈ Import.vectors namedLib 1 namedStore (.path (.file (List.replicate (1024 * 1024) 0))),
      Publishable namedLib.toLib v) ∧
    ¬ ∀ v ∈ Import.vectors wholeLib 2 namedStore (.file (List.replicate RAND_THRESHOLD 0)),
      Publishable wholeLib.toLib v := by
  constructor
  · have hlen : (List.replicate (1024 * 1024) (0 : UInt8)).length = 1024 * 1024 := List.length_replicate
    generalize List.replicate (1024 * 1024) (0 : UInt8) = file at hlen
    intro h
    have hlight : PathLight namedLib 1 namedStore (.file file) := (pathVectors_publishable_iff _ _ _ _).mp h
    rw [PathLight, or_iff_right (by omega), if_neg (by rw [hlen]; decide), randomize_uniform fun _ => rfl] at hlight
    cases hlight
  · have hlen : (List.replicate RAND_THRESHOLD (0 : UInt8)).length = RAND_THRESHOLD := List.length_replicate
    generalize List.replicate RAND_THRESHOLD (0 : UInt8) = file at hlen
    intro h
    have hlight : FileLight wholeLib.toLib 2 file := fileVectors_publishable_iff.mp h
    obtain ⟨⟨tmp, seed⟩, hfirst⟩ := randomize_whole (length_firstBuffer file) 0
      (seedOf (wholeLib.sha1 (firstBuffer file)))
    obtain ⟨-, hrandom⟩ := hlight tmp seed hfirst
    have hmax : RAND_THRESHOLD < MAX_CHUNK_SIZE := by decide
    rcases hrandom with hlt | hwhole
    · exact absurd hlt (Nat.not_lt.mpr hlen.ge)
    · have hlength : (tmp.take file.length).length = MAX_CHUNK_SIZE := beq_iff_eq.mp hwhole
      rw [List.length_take] at hlength
      omega

end Tornet.Chunk
