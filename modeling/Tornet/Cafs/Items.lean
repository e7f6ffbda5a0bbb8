import Mathlib.Algebra.Order.BigOperators.Group.List
import Tornet.Cafs.Entries

/-! The entries of an imported directory against its items: which item has one, and of which type. -/
namespace Tornet.Cafs
open Library

variable {L : DirLib} {store store' : Store} {s s' : Packing} {fuel : Nat}

/-- The type of an item. What is skipped (a hidden directory, or neither file nor directory) has the type `unknown`. -/
def kind : Bytes × Tree → UInt8
  | (name, .directory _) => if name.head? ≠ some 46 then directoryType else unknownType
  | (_, .file data) => if IMBED_THRESHOLD < data.length then fileHeaderType else fileDataType
  | (_, .other) => unknownType

def Entry.label (e : Entry) : Bytes × UInt8 := (e.name, e.ref.type)

def kept (items : List (Bytes × Tree)) (ts : List Turn) : List ((Bytes × Tree) × Turn) :=
  (items.zip ts).filter fun p => !p.2.tooLarge

/-- The label of the entry of an item: the type comes from the reference that is found, if there is one. -/
def entryLabel (p : (Bytes × Tree) × Turn) : Bytes × UInt8 := (p.1.1, (p.2.found.map fun r => r.type).getD (kind p.1))

/-! ### A turn of the loop -/

theorem kept_cons (item : Bytes × Tree) (items : List (Bytes × Tree)) (t : Turn) (ts : List Turn) :
    kept (item :: items) (t :: ts) = kept [item] [t] ++ kept items ts := by
  simp only [kept, List.zip_cons_cons, List.zip_nil_right, List.filter_cons, List.filter_nil]
  split_ifs
  · rfl
  · rfl

theorem kept_singleton {item : Bytes × Tree} {t : Turn} (h : t.tooLarge = false) : kept [item] [t] = [(item, t)] := by
  simp [kept, h]

private theorem tooLarge_of_fits {size : Nat} (h : size < MAX_CHUNK_SIZE) : Turn.tooLarge ⟨size, none⟩ = false := by
  rw [Turn.tooLarge, decide_eq_false (Nat.not_le.mpr h), Bool.and_false]

/-- `save_chunk` changes neither names nor types. -/
theorem label_patch (seed : UInt64) (id : Sha1) (e : Entry) : (patch seed id e).label = e.label := by
  rw [patch]
  split_ifs
  · rfl
  · rfl

private theorem saveChunk_labels {L : Lib} (h : saveChunk L fuel s = some s') :
    s'.dir.map Entry.label = s.dir.map Entry.label := by
  obtain ⟨tmp, seed, -, hdir, -, -⟩ := saveChunk_eq h
  rw [hdir, List.map_map]
  exact List.map_congr_left fun e _ => label_patch seed _ e

private theorem addToChunk_labels {L : Lib} {name content : Bytes} {type : UInt8}
    (h : addToChunk L s name content type = some s') :
    s'.dir.map Entry.label = s.dir.map Entry.label ++ [(name, type)] ∧ content.length < MAX_CHUNK_SIZE := by
  rw [addToChunk] at h
  split_ifs at h with hfits
  obtain rfl := Option.some.inj h
  exact ⟨List.map_append, by omega⟩

section
variable {sub : Store → List (Bytes × Tree) → Option (List Entry × Store)} {item : Bytes × Tree}

theorem prepare_kind {content : Bytes} {type : UInt8} (h : prepare L fuel sub store item = some (content, type, store')) :
    type = kind item := by
  obtain ⟨name, tree⟩ := item
  cases tree with
  | directory items =>
    simp only [prepare] at h
    rw [kind]
    split_ifs at h ⊢ with hidden
    · obtain ⟨d, -, hx⟩ := Option.bind_eq_some_iff.mp h
      exact (congrArg (fun x => x.2.1) (Option.some.inj hx)).symm
    · exact (congrArg (fun x => x.2.1) (Option.some.inj h)).symm
  | file data =>
    simp only [prepare] at h
    rw [kind]
    split_ifs at h ⊢ with hlarge
    · obtain ⟨d, -, hx⟩ := Option.bind_eq_some_iff.mp h
      exact (congrArg (fun x => x.2.1) (Option.some.inj hx)).symm
    · exact (congrArg (fun x => x.2.1) (Option.some.inj h)).symm
  | other => exact (congrArg (fun x => x.2.1) (Option.some.inj h)).symm

/-- A turn adds the entry of its item, or none where the content is too large. -/
theorem importItem_labels (h : importItem L fuel sub s item = some s') :
    ∃ t, turns L fuel sub [item] s = [t] ∧
      s'.dir.map Entry.label = s.dir.map Entry.label ++ (kept [item] [t]).map entryLabel := by
  obtain ⟨content, type, store, hprep, hcase⟩ := importItem_cases h
  obtain rfl := prepare_kind hprep
  refine ⟨⟨content.length, store.fileDb (L.sha1 content)⟩, by simp only [turns, hprep, h], ?_⟩
  rcases hcase with ⟨ref, hdb, rfl⟩ | ⟨hdb, hadd⟩ | ⟨hdb, -, s₁, hsave, rfl⟩
  · rw [hdb, kept_singleton rfl]
    exact List.map_append
  · obtain ⟨hlabels, hfits⟩ := addToChunk_labels hadd
    rw [hdb, kept_singleton (tooLarge_of_fits hfits)]
    exact hlabels
  · have hsaved := saveChunk_labels hsave
    rw [hdb]
    cases hadd : addToChunk L.toLib { s₁ with chunk := [] } item.1 content (kind item) with
    | some s₂ =>
      obtain ⟨hlabels, hfits⟩ := addToChunk_labels hadd
      rw [kept_singleton (tooLarge_of_fits hfits), Option.getD_some, hlabels, hsaved]
      rfl
    | none =>
      have hlarge : MAX_CHUNK_SIZE ≤ content.length := addToChunk_none hadd
      have hlost : kept [item] [⟨content.length, none⟩] = [] := by simp [kept, Turn.tooLarge, hlarge]
      rw [hlost, List.map_nil, List.append_nil]
      exact hsaved

private theorem importItems_labels {items : List (Bytes × Tree)} (h : items.foldlM (importItem L fuel sub) s = some s') :
    (turns L fuel sub items s).length = items.length ∧
      s'.dir.map Entry.label = s.dir.map Entry.label ++ (kept items (turns L fuel sub items s)).map entryLabel := by
  induction items generalizing s with
  | nil =>
    obtain rfl := Option.some.inj h
    exact ⟨rfl, (List.append_nil _).symm⟩
  | cons item rest ih =>
    rw [List.foldlM_cons] at h
    obtain ⟨s₁, hitem, hrest⟩ := Option.bind_eq_some_iff.mp h
    obtain ⟨t, hturn, hlabels⟩ := importItem_labels hitem
    obtain ⟨hlen, hrestLabels⟩ := ih hrest
    rw [turns_cons hitem, hturn, List.singleton_append]
    refine ⟨congrArg (· + 1) hlen, ?_⟩
    rw [hrestLabels, hlabels, kept_cons item rest, List.map_append, List.append_assoc]

end

/-- The entries of a directory, in the order of the items. -/
theorem importDirectory_labels {items : List (Bytes × Tree)} {dir : List Entry}
    (h : importDirectory L (fuel + 1) store items = some (dir, store')) :
    (importTurns L fuel store items).length = items.length ∧
      dir.map Entry.label = (kept items (importTurns L fuel store items)).map entryLabel := by
  obtain ⟨s, s', hloop, hclose, rfl, -⟩ := importDirectory_eq h
  obtain ⟨hlen, hlabels⟩ := importItems_labels hloop
  refine ⟨hlen, ?_⟩
  have hsame : s'.dir.map Entry.label = s.dir.map Entry.label := by
    rw [saveLast] at hclose
    split_ifs at hclose
    · obtain rfl := Option.some.inj hclose
      rfl
    · exact saveChunk_labels hclose
  rw [hsame, hlabels]
  rfl

private theorem importDirectory_names {items : List (Bytes × Tree)} {dir : List Entry}
    (h : importDirectory L (fuel + 1) store items = some (dir, store')) :
    dir.map Entry.name = (kept items (importTurns L fuel store items)).map fun p => p.1.1 := by
  have hnames := congrArg (List.map Prod.fst) (importDirectory_labels h).2
  rwa [List.map_map, List.map_map] at hnames

/-! ### Lost items -/

private theorem map_fst_zip_fst {items : List (Bytes × Tree)} {ts : List Turn} (h : ts.length = items.length) :
    (items.zip ts).map (fun p => p.1.1) = items.map Prod.fst := by
  have hfst : (items.zip ts).map Prod.fst = items := List.map_fst_zip h.ge
  have hnames : ((items.zip ts).map Prod.fst).map Prod.fst = items.map Prod.fst := congrArg _ hfst
  rwa [List.map_map] at hnames

theorem names_eq_iff {items : List (Bytes × Tree)} {dir : List Entry}
    (himport : importDirectory L (fuel + 1) store items = some (dir, store')) :
    dir.map Entry.name = items.map Prod.fst ↔
      ∀ t ∈ importTurns L fuel store items, t.found = none → t.size < MAX_CHUNK_SIZE := by
  obtain ⟨hlen, -⟩ := importDirectory_labels himport
  have hnames := importDirectory_names himport
  have hlarge (t : Turn) : (!t.tooLarge) = true ↔ (t.found = none → t.size < MAX_CHUNK_SIZE) := by
    cases hfound : t.found with
    | none => simp [Turn.tooLarge, hfound]
    | some r => simp [Turn.tooLarge, hfound]
  constructor
  · intro hall t ht hnone
    -- no item is missing, so no turn is filtered out
    have hcount : (kept items (importTurns L fuel store items)).length = (items.zip (importTurns L fuel store items)).length := by
      have hsize := congrArg List.length (hnames.symm.trans hall)
      rw [List.length_map, List.length_map] at hsize
      rw [hsize, List.length_zip, hlen, Nat.min_self]
    have hfilter := List.length_filter_eq_length_iff.mp hcount
    obtain ⟨i, hi, rfl⟩ := List.mem_iff_getElem.mp ht
    have hi' : i < items.length := hlen ▸ hi
    have hmem : (items[i], (importTurns L fuel store items)[i]) ∈ items.zip (importTurns L fuel store items) := by
      apply List.mem_iff_getElem.mpr
      exact ⟨i, by rw [List.length_zip]; omega, List.getElem_zip⟩
    exact (hlarge _).mp (hfilter _ hmem) hnone
  · intro hfits
    have hkept : kept items (importTurns L fuel store items) = items.zip (importTurns L fuel store items) := by
      apply List.filter_eq_self.mpr
      intro p hp
      exact (hlarge p.2).mpr (hfits p.2 (List.of_mem_zip hp).2)
    rw [hnames, hkept, map_fst_zip_fst hlen]

/-- No name is in the directory that no item has. -/
theorem importDirectory_names_sublist {items : List (Bytes × Tree)} {dir : List Entry}
    (h : importDirectory L fuel store items = some (dir, store')) : (dir.map Entry.name).Sublist (items.map Prod.fst) := by
  cases fuel with
  | zero => cases h
  | succ fuel =>
    rw [importDirectory_names h, ← map_fst_zip_fst (importDirectory_labels h).1]
    exact List.filter_sublist.map _

/-- Every item has its entry, in the order of the items, if and only if none has a content that is not in the file
database and too large for a chunk. -/
theorem entries_complete_iff (L : DirLib) (fuel : Nat) (store store' : Store) (items : List (Bytes × Tree))
    (dir : List Entry) (himport : importDirectory L (fuel + 1) store items = some (dir, store')) :
    dir.map Entry.name = items.map Prod.fst ↔
      ∀ t ∈ importTurns L fuel store items, t.found = none → t.size < MAX_CHUNK_SIZE :=
  names_eq_iff himport

/-- Both files of `namedItems` have their entries. -/
theorem entries_complete_iff_named : ∃ dir store', importDirectory namedLib 2 namedStore namedItems = some (dir, store') ∧
    dir.map Entry.name = [[97], [98]] := by
  have hsome : (importDirectory namedLib 2 namedStore namedItems).isSome = true := by decide +kernel
  obtain ⟨⟨dir, store'⟩, himport⟩ := Option.isSome_iff_exists.mp hsome
  refine ⟨dir, store', himport, (entries_complete_iff namedLib 1 namedStore store' namedItems dir himport).mpr ?_⟩
  decide +kernel

/-! ### A directory of many files -/

def emptyFiles (names : List Bytes) : List (Bytes × Tree) := names.map fun name => (name, .file [])

def emptyEntry (L : DirLib) (name : Bytes) : Entry := ⟨name, ⟨0, 0, 0, 0, fileDataType⟩, L.sha1 []⟩

theorem importItem_emptyFile (L : DirLib) (fuel : Nat) (sub : Store → List (Bytes × Tree) → Option (List Entry × Store))
    {s : Packing} (name : Bytes) (hchunk : s.chunk = []) (hdb : s.store.fileDb (L.sha1 []) = none) :
    importItem L fuel sub s (name, .file []) = some { s with dir := s.dir ++ [emptyEntry L name] } := by
  have hprep : prepare L fuel sub s.store (name, .file []) = some ([], fileDataType, s.store) := rfl
  have hadd : addToChunk L.toLib { s with store := s.store } name [] fileDataType =
      some { s with dir := s.dir ++ [emptyEntry L name] } := by
    rw [addToChunk, if_pos (by rw [hchunk]; decide)]
    simp only [List.append_nil, hchunk]
    rfl
  rw [importItem, hprep]
  simp only [Option.bind_eq_bind, Option.bind_some, hdb, hadd]

private theorem importItems_emptyFiles (L : DirLib) (fuel : Nat)
    (sub : Store → List (Bytes × Tree) → Option (List Entry × Store)) {s : Packing} (names : List Bytes)
    (hchunk : s.chunk = []) (hdb : s.store.fileDb (L.sha1 []) = none) :
    (emptyFiles names).foldlM (importItem L fuel sub) s =
      some { s with dir := s.dir ++ names.map (emptyEntry L) } := by
  induction names generalizing s with
  | nil => exact congrArg some (by rw [List.map_nil, List.append_nil])
  | cons name names ih =>
    rw [emptyFiles, List.map_cons, List.foldlM_cons, importItem_emptyFile L fuel sub name hchunk hdb]
    have hrest := ih (s := { s with dir := s.dir ++ [emptyEntry L name] }) hchunk hdb
    rw [emptyFiles] at hrest
    rw [Option.bind_eq_bind, Option.bind_some, hrest, List.map_cons, List.append_assoc, List.singleton_append]

/-- References to one content only change what is known of it. -/
theorem storeRefs_of_ne {db : Sha1 → Option StoredRef} {dir : List Entry} {k : Sha1}
    (h : ∀ e ∈ dir, e.ref.content ≠ k) : dir.foldl (fun db e => storeRef db e.ref) db k = db k := by
  induction dir generalizing db with
  | nil => rfl
  | cons e rest ih =>
    obtain ⟨he, hrest⟩ := List.forall_mem_cons.mp h
    have hkeep : storeRef db e.ref k = db k := by
      cases hold : db e.ref.content with
      | some old => simp only [storeRef, hold]
      | none =>
        simp only [storeRef, hold]
        exact Function.update_of_ne he.symm _ _
    rw [List.foldl_cons, ih hrest, hkeep]

/-- Nothing is written for them, and all have their entries. -/
theorem importDirectory_emptyFiles (L : DirLib) (fuel : Nat) (store : Store) (names : List Bytes)
    (hdb : store.fileDb (L.sha1 []) = none) :
    ∃ dir db, importDirectory L (fuel + 1) store (emptyFiles names) = some (dir, { store with fileDb := db }) ∧
      dir.length = names.length ∧ ∀ k ≠ L.sha1 [], db k = store.fileDb k := by
  have hloop := importItems_emptyFiles L fuel (importDirectory L fuel) (s := { store := store }) names rfl hdb
  rw [List.nil_append] at hloop
  refine ⟨names.map (emptyEntry L), (names.map (emptyEntry L)).foldl (fun db e => storeRef db e.ref) store.fileDb, ?_,
    List.length_map _, fun k hk => ?_⟩
  · rw [importDirectory, hloop]
    rfl
  · apply storeRefs_of_ne
    intro e he
    obtain ⟨name, -, rfl⟩ := List.mem_map.mp he
    exact hk.symm

/-- A packed directory: 57 bytes, the name and its length for each entry. -/
theorem length_rawDirectories (dir : List Entry) :
    (rawDirectories.pack dir).length = (Varint.encode dir.length).length +
      (dir.map fun e => (Varint.encode e.name.length).length + e.name.length + 57).sum := by
  simp only [rawDirectories, Codec.list, Codec.map, Codec.pair, Codec.varint, Codec.beWord, Codec.word, Codec.fixed,
    rawUint64, Codec.byte, List.length_append, List.length_flatMap, List.length_reverse, Codec.length_leBytes,
    List.length_singleton, List.map_const', List.sum_replicate_nat, Nat.mul_one]

private theorem length_rawDirectories_ge (dir : List Entry) : 57 * dir.length ≤ (rawDirectories.pack dir).length := by
  have hsum : 57 * dir.length ≤ (dir.map fun e => (Varint.encode e.name.length).length + e.name.length + 57).sum := by
    induction dir with
    | nil => exact Nat.zero_le _
    | cons e rest ih =>
      rw [List.map_cons, List.sum_cons, List.length_cons]
      omega
  rw [length_rawDirectories]
  exact hsum.trans (Nat.le_add_left _ _)

/-- A content that has no room in any chunk leaves no trace of its item. -/
theorem importDirectory_lost (L : DirLib) (fuel : Nat) (store store' : Store) (item : Bytes × Tree) {content : Bytes}
    {type : UInt8} (hprep : prepare L (fuel + 1) (importDirectory L (fuel + 1)) store item = some (content, type, store'))
    (hdb : store'.fileDb (L.sha1 content) = none) (hlarge : MAX_CHUNK_SIZE ≤ content.length) :
    ∃ store'', importDirectory L (fuel + 2) store [item] = some ([], store'') := by
  have hfull (s : Packing) : addToChunk L.toLib s item.1 content type = none := by
    rw [addToChunk, if_neg (by omega)]
  have hsave : ∃ disk rands, saveChunk L.toLib (fuel + 1) { store := store' } =
      some { store := { store' with disk := disk, rands := rands } } := by
    have hrand : ∃ tmp seed, randomize L.toLib (fuel + 1) [] (store'.rands 0) = some (tmp, seed) := by
      refine ⟨[], store'.rands 0 + 1, ?_⟩
      rw [randomize]
      exact if_pos rfl
    obtain ⟨tmp, seed, htmp⟩ := hrand
    refine ⟨(storeChunk L.toLib store'.disk (sliceChunk L.toLib tmp) tmp).2, fun n => store'.rands (n + 1), ?_⟩
    rw [saveChunk, htmp]
    rfl
  obtain ⟨disk, rands, hsave⟩ := hsave
  refine ⟨{ store' with disk := disk, rands := rands }, ?_⟩
  have hitem : importItem L (fuel + 1) (importDirectory L (fuel + 1)) { store := store } item =
      some { store := { store' with disk := disk, rands := rands } } := by
    rw [importItem, hprep]
    simp only [Option.bind_eq_bind, Option.bind_some, hdb, hfull, hsave, Option.getD_none]
  rw [importDirectory, List.foldlM_cons, hitem]
  rfl

def decimal (n : Nat) : Bytes := (Nat.toDigits 10 n).map fun c => UInt8.ofNat c.toNat

/-- A directory `d` with 80000 empty files in it is no entry of the directory it is in. -/
theorem directory_lost : ¬ ∀ (L : DirLib) (fuel : Nat) (store store' : Store) (items : List (Bytes × Tree)) (dir : List Entry),
    importDirectory L (fuel + 1) store items = some (dir, store') → dir.map Entry.name = items.map Prod.fst := by
  intro h
  obtain ⟨d, db, himport, hlen, hdb⟩ :=
    importDirectory_emptyFiles namedLib 0 namedStore ((List.range 80000).map decimal) rfl
  rw [List.length_map, List.length_range] at hlen
  have hlarge : MAX_CHUNK_SIZE ≤ (rawDirectories.pack d).length := by
    have := length_rawDirectories_ge d
    have hmax : MAX_CHUNK_SIZE = 4194304 := rfl
    omega
  have hprep : prepare namedLib 1 (importDirectory namedLib 1) namedStore
      ([100], .directory (emptyFiles ((List.range 80000).map decimal))) =
        some (rawDirectories.pack d, directoryType, { namedStore with fileDb := db }) := by
    simp only [prepare]
    rw [if_pos (by decide), himport]
    rfl
  have hhash : namedLib.sha1 (rawDirectories.pack d) ≠ namedLib.sha1 [] := by
    have hshort (bytes : Bytes) (hb : bytes.length < 4194304) : rawDirectories.pack d ≠ bytes := by
      intro he
      rw [he] at hlarge
      exact absurd hlarge (Nat.not_le.mpr hb)
    simp only [namedLib]
    rw [if_neg (hshort [] (by decide)), if_neg (hshort namedFile (by decide)), if_neg (hshort namedData (by decide))]
    decide
  obtain ⟨store'', hlost⟩ := importDirectory_lost namedLib 0 namedStore _ _ hprep (hdb _ hhash) hlarge
  exact absurd (h namedLib 1 namedStore store'' _ [] hlost) (by simp)

/-! ### Which items can be lost -/

/-- Each turn is that of an item. -/
theorem mem_turns {sub : Store → List (Bytes × Tree) → Option (List Entry × Store)} {items : List (Bytes × Tree)} {t : Turn}
    (h : t ∈ turns L fuel sub items s) :
    ∃ item ∈ items, ∃ store content type store', prepare L fuel sub store item = some (content, type, store') ∧
      t.size = content.length := by
  induction items generalizing s with
  | nil => cases h
  | cons item rest ih =>
    rw [turns] at h
    split at h
    · rename_i content type store s' hprep hitem
      rcases List.mem_cons.mp h with rfl | h
      · exact ⟨item, List.mem_cons_self, s.store, content, type, store, hprep, rfl⟩
      · obtain ⟨item', hmem, hrest⟩ := ih h
        exact ⟨item', List.mem_cons_of_mem _ hmem, hrest⟩
    · cases h

/-- Every chunk of a file but the last one is full. -/
theorem importLoop_count {L : Lib} {disk : Disk} {size : Nat} {r : BitVec 32} {chunk input : Bytes}
    {chunks : List (Sha1 × UInt64)} {x : List (Sha1 × UInt64) × Disk} (hsize : size < 2 ^ 32)
    (hfull : chunk.length = MAX_CHUNK_SIZE ∨ size ≤ r.toNat)
    (h : importLoop L size fuel r chunk input chunks disk = some x) :
    MAX_CHUNK_SIZE * x.1.length ≤ MAX_CHUNK_SIZE * chunks.length + (size - r.toNat) + (MAX_CHUNK_SIZE - 1) := by
  induction fuel generalizing r chunk input chunks disk with
  | zero => cases h
  | succ fuel ih =>
    rw [importLoop] at h
    split_ifs at h with hmore
    · obtain ⟨⟨tmp, seed⟩, hrand, hrest⟩ := Option.bind_eq_some_iff.mp h
      have hchunk : chunk.length = MAX_CHUNK_SIZE := hfull.resolve_right (by omega)
      have hmax : MAX_CHUNK_SIZE = 4194304 := rfl
      generalize hn : min chunk.length (size - r.toNat) = n at hrand hrest
      have hbuf : tmp.length = MAX_CHUNK_SIZE := by
        rw [length_randomize hrand, List.length_append, List.length_take, List.length_drop]
        omega
      have hr : (r + BitVec.ofNat 32 n).toNat = r.toNat + n := by
        rw [BitVec.toNat_add, BitVec.toNat_ofNat]
        omega
      have hnext : (tmp.take n).length = MAX_CHUNK_SIZE ∨ size ≤ (r + BitVec.ofNat 32 n).toNat := by
        rw [List.length_take, hr]
        omega
      have hcount := ih hnext hrest
      rw [List.length_append, List.length_singleton, hr] at hcount
      rw [hmax] at hcount hchunk ⊢
      omega
    · obtain rfl := Option.some.inj h
      dsimp only
      omega

/-- The header of a file fits a chunk, whatever the size of the file is. -/
theorem importFile_header {L : Lib} {disk disk' : Disk} {file : Bytes} {head : FileHeader}
    (h : importFile L fuel disk file = some (head, disk')) : (rawFileHeaders.pack head).length < MAX_CHUNK_SIZE := by
  have hmax : MAX_CHUNK_SIZE = 4194304 := rfl
  obtain ⟨⟨chunks, disk₁⟩, hloop, hx⟩ := Option.bind_eq_some_iff.mp h
  obtain ⟨rfl, -⟩ := Prod.mk.inj (Option.some.inj hx)
  have hsize : file.length < 2 ^ 32 := by
    by_contra hlong
    rw [importLoop_endless L (Nat.not_lt.mp hlong)] at hloop
    cases hloop
  have hcount := importLoop_count hsize (.inl List.length_replicate) hloop
  rw [List.length_nil] at hcount
  have hzero : BitVec.toNat (0 : BitVec 32) = 0 := rfl
  have hlen : (rawFileHeaders.pack ⟨UInt64.ofNat file.length, chunks⟩).length =
      8 + (Varint.encode chunks.length).length + 28 * chunks.length := length_rawFileHeaders _
  have hcode : (Varint.encode chunks.length).length ≤ 5 := by
    apply Varint.length_encode_le
    dsimp only at hcount
    rw [hmax] at hcount
    omega
  dsimp only at hcount ⊢
  rw [hmax] at hcount
  omega

/-- At most five bytes for the number of entries and for the length of each name. -/
theorem length_rawDirectories_le {dir : List Entry}
    (h : 5 + ((dir.map Entry.name).map fun name => name.length + 62).sum < 2 ^ 35) :
    (rawDirectories.pack dir).length ≤ 5 + ((dir.map Entry.name).map fun name => name.length + 62).sum := by
  rw [List.map_map] at h ⊢
  have hsum : (dir.map fun e => (Varint.encode e.name.length).length + e.name.length + 57).sum ≤
      (dir.map ((fun name => name.length + 62) ∘ Entry.name)).sum ∧
        dir.length ≤ (dir.map ((fun name => name.length + 62) ∘ Entry.name)).sum := by
    induction dir with
    | nil => exact ⟨le_rfl, le_rfl⟩
    | cons e rest ih =>
      rw [List.map_cons, List.sum_cons, Function.comp_apply] at h
      obtain ⟨hrest, hlen⟩ := ih (by omega)
      have hcode := Varint.length_encode_le (n := e.name.length) (by omega)
      rw [List.map_cons, List.sum_cons, List.map_cons, List.sum_cons, Function.comp_apply, List.length_cons]
      omega
  have hcode := Varint.length_encode_le (n := dir.length) (by omega)
  rw [length_rawDirectories]
  omega

/-- With the formats of `fc::raw` only a subdirectory can be lost, and none is whose names are short enough for its
packed directory to fit a chunk. -/
theorem entries_complete_of_names (hdirs : L.directories = rawDirectories) (hheads : L.fileHeaders = rawFileHeaders)
    {items : List (Bytes × Tree)} {dir : List Entry}
    (hnames : ∀ name inner, (name, Tree.directory inner) ∈ items → name.head? ≠ some 46 →
      5 + ((inner.map Prod.fst).map fun name => name.length + 62).sum < MAX_CHUNK_SIZE)
    (himport : importDirectory L (fuel + 1) store items = some (dir, store')) :
    dir.map Entry.name = items.map Prod.fst := by
  apply (names_eq_iff himport).mpr
  intro t ht _
  obtain ⟨⟨name, tree⟩, hmem, store₁, content, type, store₂, hprep, hsize⟩ := mem_turns ht
  rw [hsize]
  cases tree with
  | directory inner =>
    simp only [prepare] at hprep
    split_ifs at hprep with hidden
    · obtain ⟨⟨d, store₃⟩, hd, hx⟩ := Option.bind_eq_some_iff.mp hprep
      obtain rfl : L.directories.pack d = content := congrArg Prod.fst (Option.some.inj hx)
      have hbound := hnames name inner hmem hidden
      have hsub : ((d.map Entry.name).map fun name => name.length + 62).sum ≤
          ((inner.map Prod.fst).map fun name => name.length + 62).sum :=
        ((importDirectory_names_sublist hd).map _).sum_le_sum fun _ _ => Nat.zero_le _
      have hmax : MAX_CHUNK_SIZE < 2 ^ 35 := by decide
      rw [hdirs]
      exact (length_rawDirectories_le (by omega)).trans_lt (by omega)
    · obtain rfl : [] = content := congrArg Prod.fst (Option.some.inj hprep)
      exact maxChunkSize_pos
  | file data =>
    simp only [prepare] at hprep
    split_ifs at hprep with hlarge
    · obtain ⟨⟨head, disk⟩, hd, hx⟩ := Option.bind_eq_some_iff.mp hprep
      obtain rfl : L.fileHeaders.pack head = content := congrArg Prod.fst (Option.some.inj hx)
      rw [hheads]
      exact importFile_header hd
    · obtain rfl : data = content := congrArg Prod.fst (Option.some.inj hprep)
      exact (Nat.not_lt.mp hlarge).trans_lt (by decide)
  | other =>
    obtain rfl : [] = content := congrArg Prod.fst (Option.some.inj hprep)
    exact maxChunkSize_pos

/-! ### Types -/

/-- Each entry has the name and the type of its item. -/
def TypesKept (items : List (Bytes × Tree)) (ts : List Turn) (dir : List Entry) : Prop :=
  dir.map Entry.label = (kept items ts).map fun p => (p.1.1, kind p.1)

theorem typesKept_iff {items : List (Bytes × Tree)} {dir : List Entry}
    (himport : importDirectory L (fuel + 1) store items = some (dir, store')) :
    TypesKept items (importTurns L fuel store items) dir ↔
      ∀ p ∈ items.zip (importTurns L fuel store items), ∀ r ∈ p.2.found, r.type = kind p.1 := by
  have hlabel (p : (Bytes × Tree) × Turn) :
      entryLabel p = (p.1.1, kind p.1) ↔ ∀ r ∈ p.2.found, r.type = kind p.1 := by
    cases hfound : p.2.found with
    | none => simp [entryLabel, hfound]
    | some r => simp [entryLabel, hfound]
  rw [TypesKept, (importDirectory_labels himport).2, List.map_inj_left]
  constructor
  · intro h p hp
    cases hfound : p.2.found with
    | none => exact fun r hr => by cases hr
    | some r =>
      -- what is found is never lost
      have hmem : p ∈ kept items (importTurns L fuel store items) :=
        List.mem_filter.mpr ⟨hp, by simp [Turn.tooLarge, hfound]⟩
      rw [← hfound]
      exact (hlabel p).mp (h p hmem)
  · exact fun h p hp => (hlabel p).mpr (h p (List.mem_of_mem_filter hp))

/-- The types of the entries are those of their items if and only if no item finds a reference of another type for its
content. -/
theorem types_kept_iff (L : DirLib) (fuel : Nat) (store store' : Store) (items : List (Bytes × Tree)) (dir : List Entry)
    (himport : importDirectory L (fuel + 1) store items = some (dir, store')) :
    TypesKept items (importTurns L fuel store items) dir ↔
      ∀ p ∈ items.zip (importTurns L fuel store items), ∀ r ∈ p.2.found, r.type = kind p.1 :=
  typesKept_iff himport

theorem types_kept_iff_named : ∃ dir store', importDirectory namedLib 2 namedStore namedItems = some (dir, store') ∧
    TypesKept namedItems (importTurns namedLib 1 namedStore namedItems) dir := by
  have hsome : (importDirectory namedLib 2 namedStore namedItems).isSome = true := by decide +kernel
  obtain ⟨⟨dir, store'⟩, himport⟩ := Option.isSome_iff_exists.mp hsome
  refine ⟨dir, store', himport, (types_kept_iff namedLib 1 namedStore store' namedItems dir himport).mpr ?_⟩
  have hnone : ∀ t ∈ importTurns namedLib 1 namedStore namedItems, t.found = none := by decide +kernel
  intro p hp r hr
  rw [hnone p.2 (List.of_mem_zip hp).2] at hr
  cases hr

/-- A hidden directory `.git` is imported, and then an empty file: the entry of the file has the type of what is skipped. -/
theorem type_of_skipped : ¬ ∀ (L : DirLib) (fuel : Nat) (store store' : Store) (items : List (Bytes × Tree)) (dir : List Entry),
    Imported L store → importDirectory L (fuel + 1) store items = some (dir, store') →
      TypesKept items (importTurns L fuel store items) dir := by
  intro h
  have hfirst : (importDirectory namedLib 2 namedStore [([46, 103, 105, 116], .directory [])]).isSome = true := by
    decide +kernel
  have hnext : ((importDirectory namedLib 2 namedStore [([46, 103, 105, 116], .directory [])]).bind fun x =>
      (importDirectory namedLib 2 x.2 [([97], .file [])]).map fun y => y.1.map Entry.label) =
        some [([97], unknownType)] := by
    decide +kernel
  have hkind : ((importDirectory namedLib 2 namedStore [([46, 103, 105, 116], .directory [])]).map fun x =>
      (kept [([97], .file [])] (importTurns namedLib 1 x.2 [([97], .file [])])).map fun p => (p.1.1, kind p.1)) =
        some [([97], fileDataType)] := by
    decide +kernel
  obtain ⟨⟨dir₁, store₁⟩, himport₁⟩ := Option.isSome_iff_exists.mp hfirst
  rw [himport₁, Option.bind_some] at hnext
  rw [himport₁, Option.map_some] at hkind
  obtain ⟨⟨dir, store⟩, himport, hlabels⟩ := Option.map_eq_some_iff.mp hnext
  have hkept := h namedLib 1 store₁ store _ dir (.directory (.nil _) himport₁) himport
  rw [TypesKept, hlabels, Option.some.inj hkind] at hkept
  exact absurd hkept (by decide)

end Tornet.Cafs
