import Tornet.Cafs.Contents

/-! The types of the references that any history of imports leaves in the file database: an entry has another type than
its item only where a content that was imported as another type has the same hash. -/
namespace Tornet.Cafs
open Library

variable {L : DirLib} {C : Set (Bytes × UInt8)} {store store' : Store} {s s' : Packing} {fuel : Nat}

/-- A reference to one of the contents, with its type. -/
def Labelled (L : DirLib) (C : Set (Bytes × UInt8)) (r : StoredRef) : Prop :=
  ∃ c ∈ C, r.content = L.sha1 c.1 ∧ r.type = c.2

/-- The file database has only such references, each under the hash of its content. -/
def Labels (L : DirLib) (C : Set (Bytes × UInt8)) (store : Store) : Prop :=
  ∀ h r, store.fileDb h = some r → r.content = h ∧ Labelled L C r

/-- So it is in the loop of an import, with the entries made so far. -/
structure Labelling (L : DirLib) (C : Set (Bytes × UInt8)) (s : Packing) : Prop where
  store : Labels L C s.store
  dir : ∀ e ∈ s.dir, Labelled L C e.ref

theorem Labels.storeRefs {dir : List Entry} (h : Labels L C store) (hdir : ∀ e ∈ dir, Labelled L C e.ref) :
    Labels L C { store with fileDb := dir.foldl (fun db e => storeRef db e.ref) store.fileDb } := by
  induction dir generalizing store with
  | nil => exact h
  | cons e dir ih =>
    rw [List.forall_mem_cons] at hdir
    suffices hstored : Labels L C { store with fileDb := storeRef store.fileDb e.ref } from ih hstored hdir.2
    intro key r hr
    cases hold : store.fileDb e.ref.content with
    | some old =>
      simp only [storeRef, hold] at hr
      exact h key r hr
    | none =>
      simp only [storeRef, hold] at hr
      by_cases hkey : key = e.ref.content
      · subst hkey
        rw [Function.update_self] at hr
        obtain rfl := Option.some.inj hr
        exact ⟨rfl, hdir.1⟩
      · rw [Function.update_of_ne hkey] at hr
        exact h key r hr

theorem Labelled.patched {e : Entry} (h : Labelled L C e.ref) (seed : UInt64) (id : Sha1) :
    Labelled L C (patch seed id e).ref := by
  rw [patch]
  split_ifs
  · exact h
  · exact h

theorem Labelling.save (h : Labelling L C s) (hsave : saveChunk L.toLib fuel s = some s') : Labelling L C s' := by
  obtain ⟨tmp, seed, -, hdir, -, hstore⟩ := saveChunk_eq hsave
  constructor
  · rw [hstore]
    exact h.store
  · intro e he
    rw [hdir] at he
    obtain ⟨e', he', rfl⟩ := List.mem_map.mp he
    exact (h.dir e' he').patched seed _

theorem Labelling.last (h : Labelling L C s) (hlast : saveLast L.toLib fuel s = some s') : Labelling L C s' := by
  rw [saveLast] at hlast
  split_ifs at hlast with hnil
  · obtain rfl := Option.some.inj hlast
    exact h
  · exact h.save hlast

theorem Labelling.entry (h : Labelling L C s) {e : Entry} (he : Labelled L C e.ref) :
    Labelling L C { s with dir := s.dir ++ [e] } := by
  refine ⟨h.store, fun e' he' => ?_⟩
  rcases List.mem_append.mp he' with hold | hnew
  · exact h.dir e' hold
  · rwa [List.mem_singleton.mp hnew]

theorem Labelling.add (h : Labelling L C s) {name content : Bytes} {type : UInt8} (hc : (content, type) ∈ C)
    (hadd : addToChunk L.toLib s name content type = some s') : Labelling L C s' := by
  rw [addToChunk] at hadd
  split_ifs at hadd
  obtain rfl := Option.some.inj hadd
  have hentry := h.entry (e := ⟨name, ⟨0, 0, BitVec.ofNat 32 s.chunk.length, BitVec.ofNat 32 content.length, type⟩,
    L.sha1 content⟩) ⟨(content, type), hc, rfl, rfl⟩
  exact ⟨hentry.store, hentry.dir⟩

/-! ### A turn of the loop -/

section
variable {sub : Store → List (Bytes × Tree) → Option (List Entry × Store)}
  {subContents : Store → List (Bytes × Tree) → List (Bytes × UInt8)} {item : Bytes × Tree} {items : List (Bytes × Tree)}
  (hsub : ∀ store items x, sub store items = some x → (∀ c ∈ subContents store items, c ∈ C) → Labels L C store →
    Labels L C x.2)

include hsub

theorem Labels.prepared (h : Labels L C store) {content : Bytes} {type : UInt8}
    (hprep : prepare L fuel sub store item = some (content, type, store'))
    (hinner : ∀ c ∈ innerContents subContents store item, c ∈ C) : Labels L C store' := by
  obtain ⟨name, tree⟩ := item
  cases tree with
  | directory inner =>
    simp only [prepare] at hprep
    split_ifs at hprep with hidden
    · obtain ⟨⟨d, store₁⟩, hd, hx⟩ := Option.bind_eq_some_iff.mp hprep
      obtain ⟨-, -, rfl⟩ : L.directories.pack d = content ∧ directoryType = type ∧ store₁ = store' := by simpa using hx
      rw [innerContents, if_pos hidden] at hinner
      exact hsub store inner _ hd hinner h
    · obtain ⟨-, -, rfl⟩ : [] = content ∧ unknownType = type ∧ store = store' := by simpa using hprep
      exact h
  | file data =>
    simp only [prepare] at hprep
    split_ifs at hprep with hlarge
    · obtain ⟨⟨head, disk⟩, -, hx⟩ := Option.bind_eq_some_iff.mp hprep
      obtain ⟨-, -, rfl⟩ : L.fileHeaders.pack head = content ∧ fileHeaderType = type ∧
          { store with disk := disk } = store' := by simpa using hx
      exact h
    · obtain ⟨-, -, rfl⟩ : data = content ∧ fileDataType = type ∧ store = store' := by simpa using hprep
      exact h
  | other =>
    simp only [prepare] at hprep
    obtain ⟨-, -, rfl⟩ : [] = content ∧ unknownType = type ∧ store = store' := by simpa using hprep
    exact h

/-- A turn keeps the labels, and a reference that it finds is that of one of the contents with this hash. -/
theorem Labelling.turn (h : Labelling L C s) (hitem : importItem L fuel sub s item = some s')
    (hcontents : ∀ c ∈ itemsContents L fuel sub subContents [item] s, c ∈ C) :
    Labelling L C s' ∧ ∃ content t, (content, kind item) ∈ C ∧ turns L fuel sub [item] s = [t] ∧
      ∀ r ∈ t.found, r.content = L.sha1 content ∧ Labelled L C r := by
  obtain ⟨content, type, store, hprep, hcase⟩ := importItem_cases hitem
  obtain rfl := prepare_kind hprep
  simp only [itemsContents, hprep, hitem, List.mem_append, List.mem_singleton] at hcontents
  have hc : (content, kind item) ∈ C := hcontents _ (.inr rfl)
  have hstore := Labels.prepared hsub h.store hprep fun c hc => hcontents c (.inl hc)
  have hready : Labelling L C { s with store := store } := ⟨hstore, h.dir⟩
  refine ⟨?_, content, ⟨content.length, store.fileDb (L.sha1 content)⟩, hc, by simp only [turns, hprep, hitem],
    fun r hr => hstore _ r hr⟩
  rcases hcase with ⟨ref, hdb, rfl⟩ | ⟨-, hadd⟩ | ⟨-, -, s₁, hsave, rfl⟩
  · exact hready.entry (hstore _ ref hdb).2
  · exact hready.add hc hadd
  · have hsaved := hready.save hsave
    have hempty : Labelling L C { s₁ with chunk := [] } := ⟨hsaved.store, hsaved.dir⟩
    cases hadd : addToChunk L.toLib { s₁ with chunk := [] } item.1 content (kind item) with
    | none => exact hempty
    | some s₂ => exact hempty.add hc hadd

theorem Labelling.loop (h : Labelling L C s) (hitems : items.foldlM (importItem L fuel sub) s = some s')
    (hcontents : ∀ c ∈ itemsContents L fuel sub subContents items s, c ∈ C) :
    Labelling L C s' ∧ ∀ p ∈ items.zip (turns L fuel sub items s), ∀ r ∈ p.2.found,
      ∃ content, (content, kind p.1) ∈ C ∧ r.content = L.sha1 content ∧ Labelled L C r := by
  induction items generalizing s with
  | nil =>
    obtain rfl := Option.some.inj hitems
    exact ⟨h, fun p hp => by cases hp⟩
  | cons item rest ih =>
    rw [List.foldlM_cons] at hitems
    obtain ⟨s₁, hitem, hrest⟩ := Option.bind_eq_some_iff.mp hitems
    obtain ⟨content, type, store, hprep, -⟩ := importItem_cases hitem
    simp only [itemsContents, hprep, hitem, List.mem_append, List.mem_cons] at hcontents
    obtain ⟨hs₁, content, t, hc, hturn, hfound⟩ := h.turn hsub hitem (by
      simp only [itemsContents, hprep, hitem, List.mem_append, List.mem_singleton]
      rintro c (hc | hc)
      · exact hcontents c (.inl hc)
      · exact hcontents c (.inr (.inl hc)))
    obtain ⟨hs', hall⟩ := ih hs₁ hrest fun c hc => hcontents c (.inr (.inr hc))
    refine ⟨hs', ?_⟩
    rw [turns_cons hitem, hturn, List.singleton_append, List.zip_cons_cons, List.forall_mem_cons]
    exact ⟨fun r hr => ⟨content, hc, hfound r hr⟩, hall⟩

end

/-! ### Whole imports -/

theorem Labels.directory (fuel : Nat) : ∀ (store : Store) (items : List (Bytes × Tree)) (x : List Entry × Store),
    importDirectory L fuel store items = some x → (∀ c ∈ directoryContents L fuel store items, c ∈ C) →
      Labels L C store → Labels L C x.2 := by
  induction fuel with
  | zero =>
    intro store items x h
    cases h
  | succ fuel ih =>
    rintro store items ⟨dir, store'⟩ h hcontents hlabels
    obtain ⟨s, s', hloop, hclose, -, rfl⟩ := importDirectory_eq h
    have hstart : Labelling L C { store := store } := ⟨hlabels, fun e he => by cases he⟩
    have hlast := (hstart.loop ih hloop hcontents).1.last hclose
    exact hlast.store.storeRefs hlast.dir

theorem History.labels {cs : List (Bytes × UInt8)} (h : History L cs store) (hcs : ∀ c ∈ cs, c ∈ C) : Labels L C store := by
  induction h with
  | nil rands => exact fun _ _ hr => nomatch hr
  | chunk head data _ ih => exact ih hcs
  | rand rands _ ih => exact ih hcs
  | @directory cs store store' dir items fuel _ himport ih =>
    rw [List.forall_mem_append] at hcs
    exact Labels.directory fuel store items _ himport hcs.2 (ih hcs.1)

/-- Whatever was imported before: where no two contents of different types, of this import or of an earlier one, have the
same hash, each entry has the type of its item. -/
theorem types_kept_of_contents {cs : List (Bytes × UInt8)} {items : List (Bytes × Tree)} {dir : List Entry}
    (hstore : History L cs store) (himport : importDirectory L (fuel + 1) store items = some (dir, store'))
    (htypes : ∀ c ∈ cs ++ directoryContents L (fuel + 1) store items,
      ∀ c' ∈ cs ++ directoryContents L (fuel + 1) store items, L.sha1 c.1 = L.sha1 c'.1 → c.2 = c'.2) :
    TypesKept items (importTurns L fuel store items) dir := by
  obtain ⟨s, s', hloop, -⟩ := importDirectory_eq himport
  have hlabels : Labels L { c | c ∈ cs ++ directoryContents L (fuel + 1) store items } store :=
    hstore.labels fun c hc => List.mem_append_left _ hc
  have hstart : Labelling L { c | c ∈ cs ++ directoryContents L (fuel + 1) store items } { store := store } :=
    ⟨hlabels, fun e he => by cases he⟩
  obtain ⟨-, hfound⟩ := hstart.loop (Labels.directory fuel) hloop fun c hc => List.mem_append_right _ hc
  apply (typesKept_iff himport).mpr
  intro p hp r hr
  obtain ⟨content, hc, hhash, c, hc', hhash', htype⟩ := hfound p hp r hr
  rw [htype]
  exact htypes c hc' _ hc (hhash'.symm.trans hhash)

end Tornet.Cafs
