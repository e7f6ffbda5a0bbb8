import Mathlib.Data.List.DropRight
import Tornet.Cafs.Directory

/-! The entries of an imported directory: when all of them can be read back. -/
namespace Tornet.Cafs
open Library

variable {L : DirLib} {disk disk' : Disk} {store store' : Store} {s s' : Packing} {r : StoredRef} {fuel : Nat}

/-! ### References -/

/-- The chunk is on the disk, and `get_resource` returns the type and bytes with the hash of the content. -/
def Readable (L : DirLib) (disk : Disk) (r : StoredRef) : Prop :=
  (disk.files r.chunk).isSome = true ∧
    ∃ bytes, getResource L.toLib disk r.toFileRef = some (r.type :: bytes) ∧ L.sha1 bytes = r.content

/-- A range of the bytes that has no chunk yet. -/
structure Waiting (L : DirLib) (chunk : Bytes) (r : StoredRef) : Prop where
  unset : r.chunk = 0
  range : r.pos.toNat + r.size.toNat ≤ chunk.length
  hash : L.sha1 ((chunk.drop r.pos.toNat).take r.size.toNat) = r.content

def Placed (L : DirLib) (disk : Disk) (chunk : Bytes) (r : StoredRef) : Prop :=
  Readable L disk r ∨ Waiting L chunk r

/-- An id stands for one chunk, and the id of a reference without one for none. -/
structure Sound (disk : Disk) : Prop where
  clash : disk.clash = false
  unset : disk.files 0 = none

theorem Sound.of_grows (h : Sound disk') (hgrows : Grows disk disk') : Sound disk := by
  refine ⟨hgrows.clash h.clash, ?_⟩
  cases hzero : disk.files 0 with
  | none => rfl
  | some f => exact (hgrows.files 0 f hzero).symm.trans h.unset

theorem Readable.set (h : Readable L disk r) (hsound : Sound disk) : r.chunk ≠ 0 := by
  intro hzero
  have hsome := h.1
  rw [hzero, hsound.unset] at hsome
  cases hsome

theorem Readable.grow (h : Readable L disk r) (hgrows : Grows disk disk') : Readable L disk' r := by
  obtain ⟨hsome, bytes, hget, hhash⟩ := h
  obtain ⟨f, hf⟩ := Option.isSome_iff_exists.mp hsome
  have hf' := hgrows.files _ f hf
  refine ⟨by rw [hf']; rfl, bytes, ?_, hhash⟩
  rw [← hget]
  simp only [getResource, getChunk, hf, hf']

theorem Waiting.append {chunk : Bytes} (h : Waiting L chunk r) (more : Bytes) : Waiting L (chunk ++ more) r := by
  have hrange := h.range
  refine ⟨h.unset, by rw [List.length_append]; omega, ?_⟩
  rw [← h.hash, List.drop_append_of_le_length (by omega), List.take_append_of_le_length]
  rw [List.length_drop]
  omega

theorem Placed.grow {chunk : Bytes} (h : Placed L disk chunk r) (hgrows : Grows disk disk') (more : Bytes) :
    Placed L disk' (chunk ++ more) r := by
  rcases h with hread | hwait
  · exact .inl (hread.grow hgrows)
  · exact .inr (hwait.append more)

/-- A reference can be read exactly if it has a chunk. -/
theorem Placed.readable_iff {chunk : Bytes} (h : Placed L disk chunk r) (hsound : Sound disk) :
    Readable L disk r ↔ r.chunk ≠ 0 := by
  refine ⟨fun hread => hread.set hsound, fun hne => ?_⟩
  rcases h with hread | hwait
  · exact hread
  · exact absurd hwait.unset hne

/-! ### The store -/

/-- What the file database knows can be read, or refers to nothing and has no chunk. -/
def Kept (L : DirLib) (store : Store) : Prop := ∀ h r, store.fileDb h = some r → Placed L store.disk [] r

/-- What every part of an import does to the store. -/
structure Extends (L : DirLib) (store store' : Store) : Prop where
  grows : Grows store.disk store'.disk
  kept : Sound store'.disk → Kept L store → Kept L store'

theorem Extends.trans {a b c : Store} (h : Extends L a b) (h' : Extends L b c) : Extends L a c := by
  refine ⟨h.grows.trans h'.grows, fun hsound hkept => ?_⟩
  exact h'.kept hsound (h.kept (hsound.of_grows h'.grows) hkept)

/-- Chunks are stored, and the database is left alone. -/
theorem Extends.of_grows (hgrows : Grows store.disk disk') (rands : Nat → UInt64) :
    Extends L store { store with disk := disk', rands := rands } := by
  refine ⟨hgrows, fun _ hkept h r hr => ?_⟩
  exact (hkept h r hr).grow hgrows []

theorem Extends.refl (L : DirLib) (store : Store) : Extends L store store := .of_grows (.refl _) store.rands

theorem importLoop_grows {L : Lib} {size : Nat} {p : BitVec 32} {chunk input : Bytes}
    {chunks : List (Sha1 × UInt64)} {x : List (Sha1 × UInt64) × Disk}
    (h : importLoop L size fuel p chunk input chunks disk = some x) : Grows disk x.2 := by
  induction fuel generalizing p chunk input chunks disk with
  | zero => cases h
  | succ fuel ih =>
    rw [importLoop] at h
    split_ifs at h with hmore
    · obtain ⟨⟨tmp, seed⟩, -, hrest⟩ := Option.bind_eq_some_iff.mp h
      exact (storeChunk_grows L disk _ _).trans (ih hrest)
    · obtain rfl := Option.some.inj h
      exact .refl disk

theorem importFile_grows {L : Lib} {file : Bytes} {x : FileHeader × Disk}
    (h : importFile L fuel disk file = some x) : Grows disk x.2 := by
  obtain ⟨y, hloop, hx⟩ := Option.bind_eq_some_iff.mp h
  obtain rfl := Option.some.inj hx
  exact importLoop_grows hloop

/-! ### A saved chunk -/

theorem saveChunk_eq {L : Lib} (h : saveChunk L fuel s = some s') :
    ∃ tmp seed, randomize L fuel s.chunk (s.store.rands 0) = some (tmp, seed) ∧
      s'.dir = s.dir.map (patch seed (stored L s.store.disk tmp).1) ∧ s'.chunk = s.chunk ∧
      s'.store = { s.store with
        disk := (stored L s.store.disk tmp).2, rands := fun n => s.store.rands (n + 1) } := by
  obtain ⟨⟨tmp, seed⟩, hrand, hrest⟩ := Option.bind_eq_some_iff.mp h
  obtain rfl := Option.some.inj hrest
  exact ⟨tmp, seed, hrand, rfl, rfl, rfl⟩

theorem saveChunk_extends (h : saveChunk L.toLib fuel s = some s') : Extends L s.store s'.store := by
  obtain ⟨tmp, seed, -, -, -, hstore⟩ := saveChunk_eq h
  rw [hstore]
  exact .of_grows (stored_grows _ _ _) _

/-- A range of the chunk is read back once the chunk is stored. -/
theorem stored_reads {tmp chunk : Bytes} {seed seed' : UInt64} (hlen : chunk.length + 1 < 2 ^ 32)
    (hrand : randomize L.toLib fuel chunk seed = some (tmp, seed')) (hfree : (stored L.toLib disk tmp).2.clash = false)
    (hin : r.pos.toNat + r.size.toNat ≤ chunk.length) :
    ((stored L.toLib disk tmp).2.files (stored L.toLib disk tmp).1).isSome = true ∧
      getResource L.toLib (stored L.toLib disk tmp).2
        { r.toFileRef with seed := seed', chunk := (stored L.toLib disk tmp).1 } =
          some (r.type :: (chunk.drop r.pos.toNat).take r.size.toNat) := by
  have htmp := length_randomize hrand
  have hold : Holds L.toLib (stored L.toLib disk tmp).2 (stored L.toLib disk tmp).1 tmp := stored_holds hfree
  have hplain := derandomize_randomize hrand tmp.length
  rw [List.take_length, htmp, List.take_length] at hplain
  constructor
  · rw [show (stored L.toLib disk tmp).2.files _ = _ from hold]
    rfl
  · have hsize : r.size.toNat + 1 < 2 ^ 32 := by omega
    rw [getResource_eq (r := { r.toFileRef with seed := seed', chunk := (stored L.toLib disk tmp).1 }) _ _ hsize,
      getChunk_range hold (by omega) (by rwa [htmp]), Option.bind_some, derandomize_range, hplain, if_neg, List.take_take, Nat.min_self]
    simp only [List.length_take, List.length_drop]
    omega

theorem Waiting.readable {tmp chunk : Bytes} {seed seed' : UInt64} (h : Waiting L chunk r)
    (hlen : chunk.length + 1 < 2 ^ 32) (hrand : randomize L.toLib fuel chunk seed = some (tmp, seed'))
    (hfree : (stored L.toLib disk tmp).2.clash = false) :
    Readable L (stored L.toLib disk tmp).2
      { r with seed := seed', chunk := (stored L.toLib disk tmp).1 } := by
  obtain ⟨hsome, hget⟩ := stored_reads hlen hrand hfree h.range
  exact ⟨hsome, _, hget, h.hash⟩

/-- After `save_chunk` every entry can be read. -/
theorem saveChunk_readable (h : saveChunk L.toLib fuel s = some s') (hsound : Sound s'.store.disk)
    (hlen : s.chunk.length + 1 < 2 ^ 32) (hplaced : ∀ e ∈ s.dir, Placed L s.store.disk s.chunk e.ref) :
    ∀ e ∈ s'.dir, Readable L s'.store.disk e.ref := by
  obtain ⟨tmp, seed, hrand, hdir, -, hstore⟩ := saveChunk_eq h
  rw [hstore] at hsound ⊢
  rw [hdir]
  intro e he
  obtain ⟨e, hmem, rfl⟩ := List.mem_map.mp he
  have hgrows := stored_grows L.toLib s.store.disk tmp
  rw [patch]
  rcases hplaced e hmem with hread | hwait
  · rw [if_neg (hread.set (hsound.of_grows hgrows))]
    exact hread.grow hgrows
  · rw [if_pos hwait.unset]
    exact hwait.readable hlen hrand hsound.clash

/-! ### What the loop reads -/

/-- What a turn of the loop goes by: the size of the content, and what the file database has for it. -/
structure Turn where
  size : Nat
  found : Option StoredRef
  deriving DecidableEq, Repr

/-- The turns of a loop that begins at `s`. -/
def turns (L : DirLib) (fuel : Nat) (sub : Store → List (Bytes × Tree) → Option (List Entry × Store)) :
    List (Bytes × Tree) → Packing → List Turn
  | [], _ => []
  | item :: rest, s =>
    match prepare L fuel sub s.store item, importItem L fuel sub s item with
    | some (content, _, store), some s' => ⟨content.length, store.fileDb (L.sha1 content)⟩ :: turns L fuel sub rest s'
    | _, _ => []

def Turn.tooLarge (t : Turn) : Bool := t.found.isNone && decide (MAX_CHUNK_SIZE ≤ t.size)

def Turn.Fills (t : Turn) : Prop := t.found = none ∧ 0 < t.size ∧ t.size < MAX_CHUNK_SIZE

/-- An entry without a chunk for which nothing is written. -/
def Turn.Empty (t : Turn) : Prop :=
  match t.found with
  | none => t.size = 0
  | some ref => ref.chunk = 0

/-- The turns since a chunk was last saved without another one begun. -/
def lastTurns (ts : List Turn) : List Turn := ts.rtakeWhile fun t => !t.tooLarge

/-- Where an entry is empty, something is written to the chunk it is to get. -/
def Anchored (ts : List Turn) : Prop := (∃ t ∈ lastTurns ts, t.Empty) → ∃ t ∈ lastTurns ts, t.Fills

/-- The entries and the chunk after some turns. -/
structure Tracks (ts : List Turn) (dir : List Entry) (chunk : Bytes) : Prop where
  written : chunk ≠ [] ↔ ∃ t ∈ lastTurns ts, t.Fills
  unset : (∃ e ∈ dir, e.ref.chunk = 0) ↔ ∃ t ∈ lastTurns ts, t.Empty ∨ t.Fills

variable {ts : List Turn} {dir : List Entry} {chunk : Bytes}

theorem lastTurns_concat {t : Turn} (h : t.tooLarge = false) : lastTurns (ts ++ [t]) = lastTurns ts ++ [t] :=
  List.rtakeWhile_concat_pos _ _ _ (by rw [h]; rfl)

theorem exists_mem_concat {α : Type} {P : α → Prop} (l : List α) (a : α) :
    (∃ x ∈ l ++ [a], P x) ↔ (∃ x ∈ l, P x) ∨ P a := by
  simp only [List.mem_append, List.mem_singleton, or_and_right, exists_or, exists_eq_left]

theorem Tracks.nil : Tracks [] [] [] := by
  constructor <;> simp [lastTurns]

theorem Tracks.found (h : Tracks ts dir chunk) (size : Nat) (name : Bytes) (ref : StoredRef) :
    Tracks (ts ++ [⟨size, some ref⟩]) (dir ++ [⟨name, ref⟩]) chunk := by
  have hlast : lastTurns (ts ++ [⟨size, some ref⟩]) = lastTurns ts ++ [⟨size, some ref⟩] := lastTurns_concat rfl
  have hno : ¬ (Turn.mk size (some ref)).Fills := by
    rintro ⟨hnone, -, -⟩
    cases hnone
  constructor
  · rw [hlast, exists_mem_concat, h.written, or_iff_left hno]
  · rw [hlast, exists_mem_concat, exists_mem_concat, h.unset, or_iff_left hno]
    rfl

/-- A content is written behind what the chunk has. -/
theorem Tracks.add {content : Bytes} {e : Entry} (h : Tracks ts dir chunk) (he : e.ref.chunk = 0)
    (hlen : content.length < MAX_CHUNK_SIZE) :
    Tracks (ts ++ [⟨content.length, none⟩]) (dir ++ [e]) (chunk ++ content) := by
  have hlast : lastTurns (ts ++ [⟨content.length, none⟩]) = lastTurns ts ++ [⟨content.length, none⟩] := by
    apply lastTurns_concat
    rw [Turn.tooLarge, decide_eq_false (Nat.not_le.mpr hlen), Bool.and_false]
  have hfills : (Turn.mk content.length none).Fills ↔ content ≠ [] := by
    simp only [Turn.Fills, true_and, List.length_pos_iff, hlen, and_true]
  have hempty : (Turn.mk content.length none).Empty ↔ content = [] := List.length_eq_zero_iff
  constructor
  · rw [hlast, exists_mem_concat, ← h.written, hfills, ne_eq, List.append_eq_nil_iff, not_and_or]
  · rw [hlast, exists_mem_concat, exists_mem_concat, hfills, hempty]
    exact iff_of_true (.inr he) (.inr (Decidable.em _))

/-- A content that did not fit is written to a chunk of its own. -/
theorem Tracks.begin {content : Bytes} {e : Entry} (ts : List Turn) (dir : List Entry) (he : e.ref.chunk = 0)
    (hne : content ≠ []) (hlen : content.length < MAX_CHUNK_SIZE) :
    Tracks (ts ++ [⟨content.length, none⟩]) (dir ++ [e]) content := by
  have hlast : lastTurns (ts ++ [⟨content.length, none⟩]) = lastTurns ts ++ [⟨content.length, none⟩] := by
    apply lastTurns_concat
    rw [Turn.tooLarge, decide_eq_false (Nat.not_le.mpr hlen), Bool.and_false]
  have hfills : (Turn.mk content.length none).Fills := ⟨rfl, List.length_pos_iff.mpr hne, hlen⟩
  constructor
  · rw [hlast, exists_mem_concat]
    exact iff_of_true hne (.inr hfills)
  · rw [hlast, exists_mem_concat, exists_mem_concat]
    exact iff_of_true (.inr he) (.inr (.inr hfills))

/-- A content that does not fit any chunk leaves nothing unset. -/
theorem Tracks.drop {size : Nat} (ts : List Turn) (hset : ∀ e ∈ dir, e.ref.chunk ≠ 0) (hlen : MAX_CHUNK_SIZE ≤ size) :
    Tracks (ts ++ [⟨size, none⟩]) dir [] := by
  have hlast : lastTurns (ts ++ [⟨size, none⟩]) = [] :=
    List.rtakeWhile_concat_neg _ _ _ (by simp [Turn.tooLarge, hlen])
  constructor
  · simp [hlast]
  · simpa [hlast] using hset

/-! ### A turn of the loop -/

theorem addToChunk_none {L : Lib} {name content : Bytes} {type : UInt8}
    (h : addToChunk L s name content type = none) : MAX_CHUNK_SIZE - s.chunk.length ≤ content.length := by
  rw [addToChunk] at h
  split_ifs at h with hfits
  omega

theorem addToChunk_store {L : Lib} {name content : Bytes} {type : UInt8}
    (h : addToChunk L s name content type = some s') : s'.store = s.store := by
  rw [addToChunk] at h
  split_ifs at h
  obtain rfl := Option.some.inj h
  rfl

theorem addToChunk_getD_store (L : Lib) (s : Packing) (name content : Bytes) (type : UInt8) :
    ((addToChunk L s name content type).getD s).store = s.store := by
  cases h : addToChunk L s name content type with
  | none => rfl
  | some s' => exact addToChunk_store h

theorem addToChunk_some {name content : Bytes} {type : UInt8} (hsize : s.chunk.length < MAX_CHUNK_SIZE)
    (h : addToChunk L.toLib s name content type = some s') :
    s'.store = s.store ∧ s'.chunk = s.chunk ++ content ∧ s'.chunk.length < MAX_CHUNK_SIZE ∧
      ∃ e, s'.dir = s.dir ++ [e] ∧ Waiting L s'.chunk e.ref := by
  have hmax : MAX_CHUNK_SIZE < 2 ^ 32 := by decide
  rw [addToChunk] at h
  split_ifs at h with hfits
  obtain rfl := Option.some.inj h
  have hpos : (BitVec.ofNat 32 s.chunk.length).toNat = s.chunk.length := toNat_pos (by omega)
  have hlen : (BitVec.ofNat 32 content.length).toNat = content.length := toNat_pos (by omega)
  refine ⟨rfl, rfl, by rw [List.length_append]; omega, _, rfl, rfl, ?_, ?_⟩
  · rw [hpos, hlen, List.length_append]
  · rw [hpos, hlen, List.drop_left, List.take_length]

/-- The state of the loop between two turns. -/
structure Stands (L : DirLib) (s : Packing) : Prop where
  kept : Kept L s.store
  size : s.chunk.length < MAX_CHUNK_SIZE
  placed : ∀ e ∈ s.dir, Placed L s.store.disk s.chunk e.ref

theorem maxChunkSize_pos : 0 < MAX_CHUNK_SIZE := by decide

theorem Stands.init (hkept : Kept L store) : Stands L { store := store } :=
  ⟨hkept, maxChunkSize_pos, fun _ he => by cases he⟩

/-- An item is prepared: it may store chunks and import a directory. -/
theorem Stands.prepared (h : Stands L s) (hext : Extends L s.store store') (hsound : Sound store'.disk) :
    Stands L { s with store := store' } := by
  refine ⟨hext.kept hsound h.kept, h.size, fun e he => ?_⟩
  have hplaced := (h.placed e he).grow hext.grows []
  rwa [List.append_nil] at hplaced

theorem Stands.found (h : Stands L s) {key : Sha1} {ref : StoredRef} (hdb : s.store.fileDb key = some ref)
    (name : Bytes) : Stands L { s with dir := s.dir ++ [⟨name, ref⟩] } := by
  refine ⟨h.kept, h.size, fun e he => ?_⟩
  rcases List.mem_append.mp he with he | he
  · exact h.placed e he
  · obtain rfl := List.mem_singleton.mp he
    have hplaced := (h.kept key ref hdb).grow (.refl s.store.disk) s.chunk
    rwa [List.nil_append] at hplaced

theorem Stands.add (h : Stands L s) {name content : Bytes} {type : UInt8}
    (hadd : addToChunk L.toLib s name content type = some s') : Stands L s' := by
  obtain ⟨hstore, hchunk, hsize, e, hdir, hwait⟩ := addToChunk_some h.size hadd
  refine ⟨hstore ▸ h.kept, hsize, fun e' he => ?_⟩
  rw [hdir] at he
  rcases List.mem_append.mp he with he | he
  · rw [hstore, hchunk]
    exact (h.placed e' he).grow (.refl _) content
  · obtain rfl := List.mem_singleton.mp he
    exact .inr hwait

theorem Stands.length_lt (h : Stands L s) : s.chunk.length + 1 < 2 ^ 32 := Nat.lt_of_le_of_lt h.size (by decide)

/-- The chunk is saved, and another one begun. -/
theorem Stands.save (h : Stands L s) (hsave : saveChunk L.toLib fuel s = some s') (hsound : Sound s'.store.disk) :
    Stands L { s' with chunk := [] } := by
  refine ⟨(saveChunk_extends hsave).kept hsound h.kept, maxChunkSize_pos, fun e he => ?_⟩
  exact .inl (saveChunk_readable hsave hsound h.length_lt h.placed e he)

section
variable {sub : Store → List (Bytes × Tree) → Option (List Entry × Store)} {item : Bytes × Tree}

/-- All a turn of the loop can do. -/
theorem importItem_cases (h : importItem L fuel sub s item = some s') :
    ∃ content type store, prepare L fuel sub s.store item = some (content, type, store) ∧
      ((∃ ref, store.fileDb (L.sha1 content) = some ref ∧
          s' = { s with store := store, dir := s.dir ++ [⟨item.1, ref⟩] }) ∨
        (store.fileDb (L.sha1 content) = none ∧
          addToChunk L.toLib { s with store := store } item.1 content type = some s') ∨
        (store.fileDb (L.sha1 content) = none ∧ addToChunk L.toLib { s with store := store } item.1 content type = none ∧
          ∃ s₁, saveChunk L.toLib fuel { s with store := store } = some s₁ ∧
            s' = (addToChunk L.toLib { s₁ with chunk := [] } item.1 content type).getD { s₁ with chunk := [] })) := by
  obtain ⟨⟨content, type, store⟩, hprep, hrest⟩ := Option.bind_eq_some_iff.mp h
  refine ⟨content, type, store, hprep, ?_⟩
  dsimp only at hrest
  split at hrest
  · rename_i ref hdb
    exact .inl ⟨ref, hdb, (Option.some.inj hrest).symm⟩
  · rename_i hdb
    split at hrest
    · rename_i s₁ hadd
      exact .inr (.inl ⟨hdb, hadd.trans hrest⟩)
    · rename_i hfull
      obtain ⟨s₁, hsave, hs'⟩ := Option.bind_eq_some_iff.mp hrest
      exact .inr (.inr ⟨hdb, hfull, s₁, hsave, (Option.some.inj hs').symm⟩)

variable (hsub : ∀ store items x, sub store items = some x → Extends L store x.2)
include hsub

theorem prepare_extends {x : Bytes × UInt8 × Store} (h : prepare L fuel sub store item = some x) :
    Extends L store x.2.2 := by
  obtain ⟨name, tree⟩ := item
  cases tree with
  | directory items =>
    simp only [prepare] at h
    split_ifs at h with hidden
    · obtain ⟨d, hd, hx⟩ := Option.bind_eq_some_iff.mp h
      obtain rfl := Option.some.inj hx
      exact hsub store items d hd
    · obtain rfl := Option.some.inj h
      exact .refl L store
  | file data =>
    simp only [prepare] at h
    split_ifs at h with hlarge
    · obtain ⟨d, hd, hx⟩ := Option.bind_eq_some_iff.mp h
      obtain rfl := Option.some.inj hx
      exact .of_grows (importFile_grows hd) store.rands
    · obtain rfl := Option.some.inj h
      exact .refl L store
  | other =>
    obtain rfl := Option.some.inj h
    exact .refl L store

private theorem importItem_extends (h : importItem L fuel sub s item = some s') : Extends L s.store s'.store := by
  obtain ⟨content, type, store, hprep, hcase⟩ := importItem_cases h
  apply (prepare_extends hsub hprep).trans
  rcases hcase with ⟨ref, -, rfl⟩ | ⟨-, hadd⟩ | ⟨-, -, s₁, hsave, rfl⟩
  · exact .refl L store
  · rw [addToChunk_store hadd]
    exact .refl L store
  · have hsaved := saveChunk_extends hsave
    rwa [addToChunk_getD_store]

/-- A turn keeps the entries placed, and the chunk follows what it read. -/
theorem importItem_stands (h : importItem L fuel sub s item = some s') (hsound : Sound s'.store.disk)
    (hs : Stands L s) (ht : Tracks ts s.dir s.chunk) :
    Stands L s' ∧ Tracks (ts ++ turns L fuel sub [item] s) s'.dir s'.chunk := by
  obtain ⟨content, type, store, hprep, hcase⟩ := importItem_cases h
  have hturn : turns L fuel sub [item] s = [⟨content.length, store.fileDb (L.sha1 content)⟩] := by
    simp only [turns, hprep, h]
  have hext := prepare_extends hsub hprep
  rw [hturn]
  rcases hcase with ⟨ref, hdb, rfl⟩ | ⟨hdb, hadd⟩ | ⟨hdb, hfull, s₁, hsave, rfl⟩
  · have hprepared := hs.prepared hext hsound
    rw [hdb]
    exact ⟨hprepared.found hdb item.1, ht.found _ _ _⟩
  · rw [addToChunk_store hadd] at hsound
    have hprepared := hs.prepared hext hsound
    obtain ⟨-, hchunk, hsize, e, hdir, hwait⟩ := addToChunk_some hprepared.size hadd
    rw [hchunk, List.length_append] at hsize
    rw [hdb, hchunk, hdir]
    exact ⟨hprepared.add hadd, ht.add hwait.unset (by omega)⟩
  · rw [addToChunk_getD_store] at hsound
    have hprepared := hs.prepared hext (hsound.of_grows (saveChunk_extends hsave).grows)
    have hsaved := hprepared.save hsave hsound
    have hset : ∀ e ∈ s₁.dir, e.ref.chunk ≠ 0 := fun e he =>
      (saveChunk_readable hsave hsound hprepared.length_lt hprepared.placed e he).set hsound
    rw [hdb]
    cases hadd : addToChunk L.toLib { s₁ with chunk := [] } item.1 content type with
    | none => exact ⟨hsaved, .drop ts hset (addToChunk_none hadd)⟩
    | some s₂ =>
      obtain ⟨-, hchunk, hsize, e, hdir, hwait⟩ := addToChunk_some hsaved.size hadd
      have hne : content ≠ [] := by
        rintro rfl
        have := addToChunk_none hfull
        have := hs.size
        simp only [List.length_nil] at *
        omega
      refine ⟨hsaved.add hadd, ?_⟩
      rw [Option.getD_some, hdir, hchunk]
      rw [hchunk] at hsize
      exact .begin ts _ hwait.unset hne hsize

/-! ### The loop -/

theorem importItems_extends {items : List (Bytes × Tree)}
    (h : items.foldlM (importItem L fuel sub) s = some s') : Extends L s.store s'.store := by
  induction items generalizing s with
  | nil =>
    obtain rfl := Option.some.inj h
    exact .refl L _
  | cons item rest ih =>
    rw [List.foldlM_cons] at h
    obtain ⟨s₁, hitem, hrest⟩ := Option.bind_eq_some_iff.mp h
    exact (importItem_extends hsub hitem).trans (ih hrest)

omit hsub in
theorem turns_cons {rest : List (Bytes × Tree)} (h : importItem L fuel sub s item = some s') :
    turns L fuel sub (item :: rest) s = turns L fuel sub [item] s ++ turns L fuel sub rest s' := by
  obtain ⟨content, type, store, hprep, -⟩ := importItem_cases h
  simp only [turns, hprep, h, List.singleton_append]

private theorem importItems_stands {items : List (Bytes × Tree)}
    (h : items.foldlM (importItem L fuel sub) s = some s') (hsound : Sound s'.store.disk)
    (hs : Stands L s) (ht : Tracks ts s.dir s.chunk) :
    Stands L s' ∧ Tracks (ts ++ turns L fuel sub items s) s'.dir s'.chunk := by
  induction items generalizing s ts with
  | nil =>
    obtain rfl := Option.some.inj h
    rw [turns, List.append_nil]
    exact ⟨hs, ht⟩
  | cons item rest ih =>
    rw [List.foldlM_cons] at h
    obtain ⟨s₁, hitem, hrest⟩ := Option.bind_eq_some_iff.mp h
    have hsound₁ := hsound.of_grows (importItems_extends hsub hrest).grows
    obtain ⟨hs₁, ht₁⟩ := importItem_stands hsub hitem hsound₁ hs ht
    rw [turns_cons hitem, ← List.append_assoc]
    exact ih hrest hs₁ ht₁

end

/-! ### The end of the import -/

theorem saveLast_extends (h : saveLast L.toLib fuel s = some s') : Extends L s.store s'.store := by
  rw [saveLast] at h
  split_ifs at h with hnil
  · obtain rfl := Option.some.inj h
    exact .refl L _
  · exact saveChunk_extends h

/-- An entry that is left without a chunk refers to nothing. -/
theorem saveLast_placed (h : saveLast L.toLib fuel s = some s') (hsound : Sound s'.store.disk) (hs : Stands L s) :
    ∀ e ∈ s'.dir, Placed L s'.store.disk [] e.ref := by
  rw [saveLast] at h
  split_ifs at h with hnil
  · obtain rfl := Option.some.inj h
    rw [← hnil]
    exact hs.placed
  · exact fun e he => .inl (saveChunk_readable h hsound hs.length_lt hs.placed e he)

theorem saveLast_readable_iff (h : saveLast L.toLib fuel s = some s') (hsound : Sound s'.store.disk)
    (hs : Stands L s) (ht : Tracks ts s.dir s.chunk) :
    (∀ e ∈ s'.dir, Readable L s'.store.disk e.ref) ↔ Anchored ts := by
  have hplaced := saveLast_placed h hsound hs
  rw [saveLast] at h
  split_ifs at h with hnil
  · -- nothing was written: the entries that wait keep waiting
    obtain rfl := Option.some.inj h
    have hno : ¬ ∃ t ∈ lastTurns ts, t.Fills := fun hfills => ht.written.mpr hfills hnil
    have hread : (∀ e ∈ s.dir, Readable L s.store.disk e.ref) ↔ ¬ ∃ e ∈ s.dir, e.ref.chunk = 0 := by
      rw [not_exists]
      refine forall_congr' fun e => ?_
      rw [not_and]
      exact forall_congr' fun he => (hplaced e he).readable_iff hsound
    have hempty : (∃ t ∈ lastTurns ts, t.Empty ∨ t.Fills) ↔ ∃ t ∈ lastTurns ts, t.Empty := by
      refine exists_congr fun t => and_congr_right fun hmem => or_iff_left fun hfills => ?_
      exact hno ⟨t, hmem, hfills⟩
    rw [hread, ht.unset, hempty, Anchored, imp_iff_not hno]
  · refine iff_of_true (saveChunk_readable h hsound hs.length_lt hs.placed) fun _ => ?_
    exact ht.written.mp hnil

private theorem storeRef_placed {db : Sha1 → Option StoredRef} (hdb : ∀ h r, db h = some r → Placed L disk [] r)
    (hr : Placed L disk [] r) {h : Sha1} {r' : StoredRef} (hget : storeRef db r h = some r') :
    Placed L disk [] r' := by
  cases hold : db r.content with
  | some old =>
    simp only [storeRef, hold] at hget
    exact hdb h r' hget
  | none =>
    simp only [storeRef, hold] at hget
    by_cases hkey : h = r.content
    · rw [hkey, Function.update_self] at hget
      exact Option.some.inj hget ▸ hr
    · rw [Function.update_of_ne hkey] at hget
      exact hdb h r' hget

private theorem storeRefs_placed {db : Sha1 → Option StoredRef} (hdb : ∀ h r, db h = some r → Placed L disk [] r)
    (hdir : ∀ e ∈ dir, Placed L disk [] e.ref) {h : Sha1}
    (hget : dir.foldl (fun db e => storeRef db e.ref) db h = some r) : Placed L disk [] r := by
  induction dir generalizing db with
  | nil => exact hdb h r hget
  | cons e rest ih =>
    refine ih (fun _ _ hstored => ?_) (fun e he => hdir e (List.mem_cons_of_mem _ he)) hget
    exact storeRef_placed hdb (hdir e (List.mem_cons_self ..)) hstored

variable {items : List (Bytes × Tree)}

theorem importDirectory_eq (h : importDirectory L (fuel + 1) store items = some (dir, store')) :
    ∃ s s', items.foldlM (importItem L fuel (importDirectory L fuel)) { store := store } = some s ∧
      saveLast L.toLib fuel s = some s' ∧ dir = s'.dir ∧
      store' = { s'.store with fileDb := s'.dir.foldl (fun db e => storeRef db e.ref) s'.store.fileDb } := by
  rw [importDirectory] at h
  obtain ⟨s, hloop, hrest⟩ := Option.bind_eq_some_iff.mp h
  obtain ⟨s', hclose, hlast⟩ := Option.bind_eq_some_iff.mp hrest
  obtain ⟨rfl, rfl⟩ := Prod.mk.inj (Option.some.inj hlast)
  exact ⟨s, s', hloop, hclose, rfl, rfl⟩

/-- By induction on how deep directories lie in each other: an import keeps the database readable. -/
theorem importDirectory_extends (L : DirLib) (fuel : Nat) (store : Store) (items : List (Bytes × Tree))
    (x : List Entry × Store) (h : importDirectory L fuel store items = some x) : Extends L store x.2 := by
  induction fuel generalizing store items x with
  | zero => cases h
  | succ fuel ih =>
    obtain ⟨dir, store'⟩ := x
    obtain ⟨s, s', hloop, hclose, -, rfl⟩ := importDirectory_eq h
    have hrun := importItems_extends ih hloop
    have hend := saveLast_extends hclose
    refine ⟨hrun.grows.trans hend.grows, fun hsound hkept => ?_⟩
    have hsound₁ := hsound.of_grows hend.grows
    obtain ⟨hs, -⟩ := importItems_stands ih hloop hsound₁ (.init hkept) .nil
    exact fun key r hr => storeRefs_placed (hend.kept hsound hs.kept) (saveLast_placed hclose hsound hs) hr

/-- The stores that imports leave behind: chunks are stored for files, by the imports and for other nodes,
`rand()` is drawn from by others, and whole directories are imported. -/
inductive Imported (L : DirLib) : Store → Prop
  | nil (rands : Nat → UInt64) : Imported L { rands := rands }
  | chunk {store : Store} (head : ChunkHeader) (data : Bytes) :
    Imported L store → Imported L { store with disk := (storeChunk L.toLib store.disk head data).2 }
  | rand {store : Store} (rands : Nat → UInt64) : Imported L store → Imported L { store with rands := rands }
  | directory {store store' : Store} {dir : List Entry} {items : List (Bytes × Tree)} {fuel : Nat} :
    Imported L store → importDirectory L fuel store items = some (dir, store') → Imported L store'

theorem Imported.kept (h : Imported L store) (hsound : Sound store.disk) : Kept L store := by
  induction h with
  | nil rands => exact fun _ _ hr => by cases hr
  | @chunk store head data _ ih =>
    have hgrows := storeChunk_grows L.toLib store.disk head data
    exact (Extends.of_grows hgrows _).kept hsound (ih (hsound.of_grows hgrows))
  | rand rands _ ih => exact ih hsound
  | directory _ himport ih =>
    have hext := importDirectory_extends _ _ _ _ _ himport
    exact hext.kept hsound (ih (hsound.of_grows hext.grows))

def importTurns (L : DirLib) (fuel : Nat) (store : Store) (items : List (Bytes × Tree)) : List Turn :=
  turns L fuel (importDirectory L fuel) items { store := store }

/-- Every entry of an imported directory can be read exactly if no empty content is left without one that
is written to its chunk. -/
theorem entries_readable_iff (L : DirLib) (fuel : Nat) (store store' : Store) (items : List (Bytes × Tree))
    (dir : List Entry) (hstore : Imported L store)
    (himport : importDirectory L (fuel + 1) store items = some (dir, store')) (hsound : Sound store'.disk) :
    (∀ e ∈ dir, Readable L store'.disk e.ref) ↔ Anchored (importTurns L fuel store items) := by
  have hgrows := (importDirectory_extends L _ store items _ himport).grows
  have hkept := hstore.kept (hsound.of_grows hgrows)
  obtain ⟨s, s', hloop, hclose, rfl, rfl⟩ := importDirectory_eq himport
  have hsound₁ := hsound.of_grows (saveLast_extends hclose).grows
  obtain ⟨hs, ht⟩ := importItems_stands (importDirectory_extends L fuel) hloop hsound₁ (.init hkept) .nil
  exact saveLast_readable_iff hclose hsound hs ht

/-! ### Directories without large files and subdirectories -/

/-- The content of an item that is taken as it is; a subdirectory that is entered and a large file are not. -/
def plainContent : Bytes × Tree → Option Bytes
  | (name, .directory _) => if name.head? ≠ some 46 then none else some []
  | (_, .file data) => if IMBED_THRESHOLD < data.length then none else some data
  | (_, .other) => some []

section
variable {sub : Store → List (Bytes × Tree) → Option (List Entry × Store)} {item : Bytes × Tree}

private theorem prepare_plain (L : DirLib) (fuel : Nat) (sub : Store → List (Bytes × Tree) → Option (List Entry × Store))
    (store : Store) {content : Bytes} (h : plainContent item = some content) :
    ∃ type, prepare L fuel sub store item = some (content, type, store) := by
  obtain ⟨name, tree⟩ := item
  cases tree with
  | directory inner =>
    simp only [plainContent] at h
    split_ifs at h with hidden
    obtain rfl := Option.some.inj h
    exact ⟨unknownType, if_neg hidden⟩
  | file data =>
    simp only [plainContent] at h
    split_ifs at h with hlarge
    obtain rfl := Option.some.inj h
    exact ⟨fileDataType, if_neg hlarge⟩
  | other =>
    obtain rfl := Option.some.inj h
    exact ⟨unknownType, rfl⟩

/-- Only the end of an import writes to the file database. -/
theorem importItem_fileDb {content : Bytes} (h : plainContent item = some content)
    (hitem : importItem L fuel sub s item = some s') : s'.store.fileDb = s.store.fileDb := by
  obtain ⟨type, hprep⟩ := prepare_plain L fuel sub s.store h
  obtain ⟨content', type', store, hprep', hcase⟩ := importItem_cases hitem
  obtain ⟨rfl, rfl, rfl⟩ : content = content' ∧ type = type' ∧ s.store = store := by
    simpa using hprep.symm.trans hprep'
  rcases hcase with ⟨ref, -, rfl⟩ | ⟨-, hadd⟩ | ⟨-, -, s₁, hsave, rfl⟩
  · rfl
  · rw [addToChunk_store hadd]
  · obtain ⟨tmp, seed, -, -, -, hstore⟩ := saveChunk_eq hsave
    rw [addToChunk_getD_store, hstore]

/-- The turns are then a function of the directory and of the database before the import. -/
theorem turns_plain {content : Bytes × Tree → Bytes} (hplain : ∀ item ∈ items, plainContent item = some (content item))
    (h : items.foldlM (importItem L fuel sub) s = some s') :
    turns L fuel sub items s =
      items.map fun item => ⟨(content item).length, s.store.fileDb (L.sha1 (content item))⟩ := by
  induction items generalizing s with
  | nil => rfl
  | cons item rest ih =>
    rw [List.foldlM_cons] at h
    obtain ⟨s₁, hitem, hrest⟩ := Option.bind_eq_some_iff.mp h
    have hcontent := hplain item List.mem_cons_self
    obtain ⟨type, hprep⟩ := prepare_plain L fuel sub s.store hcontent
    have hdb := importItem_fileDb hcontent hitem
    have htail := ih (fun item hmem => hplain item (List.mem_cons_of_mem _ hmem)) hrest
    rw [hdb] at htail
    simp only [turns, hprep, hitem, htail, List.map_cons]

end

/-- The condition for a directory of small files that is imported first: if one is empty, another is not. -/
theorem anchored_plain {content : Bytes × Tree → Bytes} (hplain : ∀ item ∈ items, plainContent item = some (content item))
    (hsmall : ∀ item ∈ items, (content item).length < MAX_CHUNK_SIZE) (hdb : ∀ h, store.fileDb h = none)
    {s' : Packing} (h : items.foldlM (importItem L fuel (importDirectory L fuel)) { store := store } = some s') :
    Anchored (importTurns L fuel store items) ↔
      ((∃ item ∈ items, content item = []) → ∃ item ∈ items, content item ≠ []) := by
  have hturns : importTurns L fuel store items = items.map fun item => ⟨(content item).length, none⟩ := by
    rw [importTurns, turns_plain hplain h]
    simp only [hdb]
  have hlast : lastTurns (importTurns L fuel store items) = importTurns L fuel store items := by
    rw [hturns]
    apply List.rtakeWhile_eq_self_iff.mpr
    intro t ht
    obtain ⟨item, hmem, rfl⟩ := List.mem_map.mp ht
    simp [Turn.tooLarge, hsmall item hmem]
  rw [Anchored, hlast, hturns]
  simp only [List.mem_map, exists_exists_and_eq_and, Turn.Empty, Turn.Fills, List.length_eq_zero_iff, true_and,
    List.length_pos_iff]
  apply imp_congr_right
  intro _
  refine exists_congr fun item => and_congr_right fun hmem => ?_
  exact and_iff_left (hsmall item hmem)

/-- `fc::raw` for a `directory`. -/
def rawDirectories : Codec (List Entry) :=
  ((Codec.byte.list.pair ((Codec.beWord 20).pair ((Codec.beWord 20).pair
    (rawUint64.pair ((Codec.word 4).pair ((Codec.word 4).pair Codec.byte)))))).map
      (fun x => ⟨x.1, ⟨x.2.2.1, x.2.2.2.1, x.2.2.2.2.1, x.2.2.2.2.2.1, x.2.2.2.2.2.2⟩, x.2.1⟩)
      (fun e => (e.name, e.ref.content, e.ref.chunk, e.ref.seed, e.ref.pos, e.ref.size, e.ref.type))
      fun _ => rfl).list

/-- The file of `smallChunk` and its chunk, randomized with the seed that follows the first `rand()`. -/
def namedFile : Bytes := smallChunk.tail
def namedData : Bytes := [147, 8, 194, 85, 199, 118]

/-- The hashes and the words of the generator that an import of this file and of an empty one asks for. -/
def namedLib : DirLib where
  sha1 bytes :=
    if bytes = [] then 0xda39a3ee5e6b4b0d3255bfef95601890afd80709
    else if bytes = namedFile then 0x9a2232552e705eccf127136e9812e81ca3d2378f
    else if bytes = namedData then 0x0712dee0eb2aff0b78b35be9e2676e8a4b47ca1a
    else 0x1ca4688a8dfb48104228eb371ca3e7883b29b48d
  chunkHeaders := rawChunkHeaders
  fileHeaders := rawFileHeaders
  mt19937 seed k := if seed = 1804289384 then [0x3bb067e7, 0x262902a2].getD k 0 else 0
  uniform _ := true
  directories := rawDirectories

def namedStore : Store := { rands := fun _ => 1804289383 }

/-- An empty file `a` and the file `b`. -/
def namedItems : List (Bytes × Tree) := [([97], .file []), ([98], .file namedFile)]

theorem entries_readable_iff_named :
    Imported namedLib namedStore ∧ ∃ dir store', importDirectory namedLib 2 namedStore namedItems = some (dir, store') ∧
      Sound store'.disk ∧ dir.length = 2 ∧ ∀ e ∈ dir, Readable namedLib store'.disk e.ref := by
  have hstore : Imported namedLib namedStore := .nil _
  have hsome : (importDirectory namedLib 2 namedStore namedItems).isSome = true := by decide +kernel
  obtain ⟨⟨dir, store'⟩, himport⟩ := Option.isSome_iff_exists.mp hsome
  have hlen : ((importDirectory namedLib 2 namedStore namedItems).map fun x => x.1.length) = some 2 := by decide +kernel
  have hzero : ((importDirectory namedLib 2 namedStore namedItems).map fun x => x.2.disk.files 0) = some none := by
    decide +kernel
  have hclash : ((importDirectory namedLib 2 namedStore namedItems).map fun x => x.2.disk.clash) = some false := by
    decide +kernel
  rw [himport] at hlen hzero hclash
  have hsound : Sound store'.disk := ⟨Option.some.inj hclash, Option.some.inj hzero⟩
  refine ⟨hstore, dir, store', himport, hsound, Option.some.inj hlen, ?_⟩
  apply (entries_readable_iff namedLib 1 namedStore store' namedItems dir hstore himport hsound).mpr
  intro _
  exact ⟨⟨6, none⟩, by decide +kernel, rfl, by decide, by decide⟩

/-- The directory of an empty file alone: nothing is stored, and its entry refers to no chunk. -/
theorem empty_unreadable :
    Imported namedLib namedStore ∧
      ∃ dir store', importDirectory namedLib 2 namedStore [([97], .file [])] = some (dir, store') ∧
        Sound store'.disk ∧ ∃ e ∈ dir, store'.disk.files e.ref.chunk = none ∧
          getResource namedLib.toLib store'.disk e.ref.toFileRef = none :=
  ⟨.nil _, _, _, rfl, ⟨rfl, rfl⟩, _, List.mem_singleton.mpr rfl, rfl, rfl⟩

end Tornet.Cafs
