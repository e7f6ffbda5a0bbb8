import Tornet.Cafs.Contents
import Tornet.Cafs.Vectors

/-! `tproxy`: a request for a path under a link, answered from the chunks, against a walk through the tree that was
imported. -/
namespace Tornet.Tproxy
open Library Cafs

/-! ### The proxy -/

/-- What is used of `fc::path`: `p == fc::path("/") || p == fc::path()`, and `p / name`. -/
structure PathLib where
  atRoot : Bytes → Bool
  join : Bytes → Bytes → Bytes
  nil : atRoot [] = true
  slash : atRoot [47] = true
  only : ∀ p, atRoot p = true → ∀ b ∈ p, b = 47

/-- What comes of a request: a reply, an exception (whose report `on_http_request` sends), or a return without either. -/
inductive Response where
  | ok (body : Bytes)
  | thrown
  | silent
  deriving DecidableEq, Repr

/-- `resource::get_file_data` and `get_file_size`. -/
def getFileData : Bytes → Option Bytes
  | [] => none
  | type :: data => if type = fileDataType then some data else none

/-- `resource::get_directory`; the outer `none` where it throws. -/
def getDirectory (L : DirLib) : Bytes → Option (Option (List Entry))
  | [] => some none
  | type :: data => if type = directoryType then (L.directories.unpack data).map fun d => some d.1 else some none

def text (s : String) : Bytes := s.toUTF8.toList

/-- A line of `list_directory`; a directory has no size. -/
def listLine (P : PathLib) (p : Bytes) : Bytes × Option Nat → Bytes
  | (name, size) =>
    text "<li><a href=\"" ++ P.join p name ++ text "\">" ++ name ++ text "</a>" ++
      (match size with
        | none => text "/"
        | some size =>
          if size < 1024 then text "  [" ++ decimal size ++ text " bytes]"
          else text "  [" ++ decimal (size / 1024) ++ text " kb]") ++
      text "</li>\n"

def listPage (P : PathLib) (p : Bytes) (lines : List (Bytes × Option Nat)) : Bytes :=
  text "<html><head><title>" ++ p ++ text "</title></head>\n" ++ text "<body>\n" ++
    text "<h2>" ++ p ++ text "</h2><hr/>\n" ++ text "<ul>\n" ++ lines.flatMap (listLine P p) ++
    text "<ul>\n" ++ text "</body>\n" ++ text "</html>\n"

/-- `list_directory`. -/
def listDirectory (P : PathLib) (p : Bytes) (d : List Entry) : Bytes :=
  listPage P p (d.map fun e => (e.name, if e.ref.type = directoryType then none else some e.ref.size.toNat))

/-- The loop over `subpath`: `head`, and what is left where it stops. -/
def splitHead (head : Bytes) : Bytes → Bytes × Bytes
  | [] => (head, [])
  | b :: rest =>
    if b = 47 ∧ head ≠ [] then (head, b :: rest)
    else splitHead (if b ≠ 47 then head ++ [b] else head) rest

section
variable (P : PathLib) (L : DirLib) (disk : Disk)

/-- `handle_file_ref`; each call takes something from the path, whose length bounds the fuel. -/
def handleFileRef : Nat → StoredRef → Bytes → Bytes → Response
  | 0, _, _, _ => .thrown
  | fuel + 1, fr, p, subpath =>
    if fr.type ≠ directoryType ∧ subpath ≠ [] then .thrown
    else
      match getResource L.toLib disk fr.toFileRef with
      | none => .thrown
      | some rs =>
        match getFileData rs with
        | some data => .ok data
        | none =>
          match getDirectory L rs with
          | none => .thrown
          | some none => .silent
          | some (some d) =>
            if P.atRoot subpath then .ok (listDirectory P p d)
            else
              let (head, tail) := splitHead [] subpath
              match d.find? fun e => e.name = head with
              | some e => handleFileRef fuel e.ref (P.join p head) tail
              | none => .thrown

/-- `handle_link`. -/
def handleLink (l : Link) (p : Bytes) : Response :=
  match opened L.toLib disk l with
  | none => .thrown
  | some rs =>
    match getFileData rs with
    | some data => .ok data
    | none =>
      match getDirectory L rs with
      | none => .thrown
      | some none => .thrown
      | some (some d) =>
        if P.atRoot p then .ok (listDirectory P [47] d)
        else
          let head := p.takeWhile (· ≠ 47)
          let tail := p.drop head.length
          match d.find? fun e => e.name = head with
          | some e => handleFileRef P L disk (tail.length + 1) e.ref (P.join [47] head) tail
          | none => .thrown

end

/-! ### What is promised -/

def names (p : Bytes) : List Bytes := (p.splitOn 47).filter (· ≠ [])

def trailing (p : Bytes) : Bytes := p.rtakeWhile (· = 47)

def find (t : Tree) : List Bytes → Option Tree
  | [] => some t
  | name :: rest =>
    match t with
    | .directory items => ((items.find? fun item => item.1 = name).map Prod.snd).bind fun t => find t rest
    | .file _ | .other => none

/-- The chunks of a large file, and the size of their header. -/
def chunkCount (size : Nat) : Nat := (size + MAX_CHUNK_SIZE - 1) / MAX_CHUNK_SIZE

def headerSize (size : Nat) : Nat := 8 + (Varint.encode (chunkCount size)).length + 28 * chunkCount size

/-- The line for an item; a large file is listed with the size of its header. -/
def itemLine : Bytes × Tree → Bytes × Option Nat
  | (name, .directory _) => (name, none)
  | (name, .file data) => (name, some (if IMBED_THRESHOLD < data.length then headerSize data.length else data.length))
  | (name, .other) => (name, some 0)

/-- The reply for what lies under a path; no more than one slash may follow a directory, none a file, and a large file
gets no reply at all. -/
def reply (P : PathLib) (p : Bytes) (slashes : Bytes) : Tree → Response
  | .directory items => if P.atRoot slashes then .ok (listPage P p (items.map itemLine)) else .thrown
  | .file data => if slashes ≠ [] then .thrown else if IMBED_THRESHOLD < data.length then .silent else .ok data
  | .other => .thrown

/-- The reply for a path in a tree, as it is shown from a path on. -/
def replyAt (P : PathLib) (t : Tree) (p subpath : Bytes) : Response :=
  match find t (names subpath) with
  | none => .thrown
  | some t' => reply P ((names subpath).foldl P.join p) (trailing subpath) t'

/-- The reply for a request under the link of a tree. The link of a large file serves nothing, and that of a small one
serves it under any path. -/
def respond (P : PathLib) (t : Tree) (p : Bytes) : Response :=
  match t with
  | .file data => if IMBED_THRESHOLD < data.length then .thrown else .ok data
  | .directory items =>
    if P.atRoot p then .ok (listPage P [47] (items.map itemLine))
    else if p.head? = some 47 then .thrown
    else replyAt P (.directory items) [47] p
  | .other => .thrown

/-! ### Paths -/

private theorem names_slash (p : Bytes) : names (47 :: p) = names p := by
  have hsplit : (47 :: p).splitOn 47 = [] :: p.splitOn 47 := List.splitOn_append_cons_self_of_not_mem List.not_mem_nil p
  rw [names, hsplit, List.filter_cons_of_neg (by simp)]
  rfl

theorem names_nil : names [] = [] := rfl

/-- The first name of a path. -/
theorem names_append {name tail : Bytes} (hne : name ≠ []) (hname : (47 : UInt8) ∉ name)
    (htail : tail = [] ∨ tail.head? = some 47) : names (name ++ tail) = name :: names tail := by
  cases tail with
  | nil =>
    rw [List.append_nil, names, List.splitOn_eq_singleton hname, List.filter_cons_of_pos (by simpa using hne)]
    rfl
  | cons b rest =>
    obtain rfl : b = 47 := by simpa using htail
    rw [names_slash, names, List.splitOn_append_cons_self_of_not_mem hname, List.filter_cons_of_pos (by simpa using hne)]
    rfl

private theorem names_dropWhile (p : Bytes) : names (p.dropWhile (· = 47)) = names p := by
  induction p with
  | nil => rfl
  | cons b p ih =>
    by_cases hb : b = 47
    · rw [List.dropWhile_cons_of_pos (by simpa using hb), ih, hb, names_slash]
    · rw [List.dropWhile_cons_of_neg (by simpa using hb)]

/-- The slashes at the end are those behind the last name. -/
theorem trailing_append (a : Bytes) {b : UInt8} (hb : b ≠ 47) (tail : Bytes) :
    trailing (a ++ b :: tail) = trailing tail := by
  induction tail using List.reverseRecOn with
  | nil => exact List.rtakeWhile_concat_neg _ _ _ (by simpa using hb)
  | append_singleton tail x ih =>
    have hassoc : a ++ b :: (tail ++ [x]) = (a ++ b :: tail) ++ [x] := by simp
    rw [hassoc, trailing, trailing, List.rtakeWhile_concat, List.rtakeWhile_concat]
    split_ifs
    · exact congrArg (· ++ [x]) ih
    · rfl

private theorem splitHead_ne {head : Bytes} (h : head ≠ []) (p : Bytes) :
    splitHead head p = (head ++ p.takeWhile (· ≠ 47), p.dropWhile (· ≠ 47)) := by
  induction p generalizing head with
  | nil => simp [splitHead]
  | cons b p ih =>
    rw [splitHead]
    by_cases hb : b = 47
    · simp [hb, h]
    · rw [if_neg (fun hand => hb hand.1), if_pos hb, ih (by simp)]
      simp [hb]

/-- The loop skips the slashes, and stops at the next. -/
theorem splitHead_nil (p : Bytes) : splitHead [] p =
    ((p.dropWhile (· = 47)).takeWhile (· ≠ 47), (p.dropWhile (· = 47)).dropWhile (· ≠ 47)) := by
  induction p with
  | nil => rfl
  | cons b p ih =>
    rw [splitHead, if_neg (by simp)]
    by_cases hb : b = 47
    · rw [if_neg (not_not.mpr hb), ih, List.dropWhile_cons_of_pos (by simpa using hb)]
    · rw [if_pos hb, List.nil_append, splitHead_ne (by simp), List.dropWhile_cons_of_neg (by simpa using hb)]
      simp [hb]

theorem names_slashes {p : Bytes} (h : ∀ b ∈ p, b = 47) : names p = [] ∧ trailing p = p := by
  constructor
  · rw [← names_dropWhile, List.dropWhile_eq_nil_iff.mpr (by simpa using h)]
    rfl
  · exact List.rtakeWhile_eq_self_iff.mpr (by simpa using h)

/-- The first name of a path that does not begin with a slash, and the slashes at the end, whatever stands before it. -/
theorem first_name {c : UInt8} (hc : c ≠ 47) (rest before : Bytes) :
    (c :: rest).takeWhile (· ≠ 47) ≠ [] ∧
      names (c :: rest) = (c :: rest).takeWhile (· ≠ 47) :: names ((c :: rest).dropWhile (· ≠ 47)) ∧
      trailing (before ++ c :: rest) = trailing ((c :: rest).dropWhile (· ≠ 47)) ∧
      ((c :: rest).dropWhile (· ≠ 47)).length < (c :: rest).length := by
  have hsplit : (c :: rest).takeWhile (· ≠ 47) ++ (c :: rest).dropWhile (· ≠ 47) = c :: rest :=
    List.takeWhile_append_dropWhile
  have hname : ∀ b ∈ (c :: rest).takeWhile (· ≠ 47), b ≠ 47 := fun b hb => by simpa using List.mem_takeWhile_imp hb
  have hne : (c :: rest).takeWhile (· ≠ 47) ≠ [] := by
    rw [List.takeWhile_cons_of_pos (by simpa using hc)]
    exact List.cons_ne_nil _ _
  have htail := List.head?_dropWhile_not (fun b : UInt8 => decide (b ≠ 47)) (c :: rest)
  generalize (c :: rest).takeWhile (· ≠ 47) = name at hsplit hname hne ⊢
  generalize (c :: rest).dropWhile (· ≠ 47) = tail at hsplit htail ⊢
  rw [← hsplit]
  refine ⟨hne, names_append hne (fun hmem => hname 47 hmem rfl) ?_, ?_, ?_⟩
  · cases tail with
    | nil => exact .inl rfl
    | cons b tail => exact .inr (by simpa using htail)
  · have hlast := name.dropLast_append_getLast hne
    rw [← hlast, List.append_assoc, ← List.append_assoc]
    exact trailing_append _ (hname _ (List.getLast_mem hne)) tail
  · have hpos := List.length_pos_iff.mpr hne
    rw [List.length_append]
    omega

/-- What `substr` leaves behind the first name. -/
theorem drop_name (p : Bytes) : p.drop (p.takeWhile (· ≠ 47)).length = p.dropWhile (· ≠ 47) := by
  induction p with
  | nil => rfl
  | cons b p ih =>
    by_cases hb : b = 47
    · rw [List.takeWhile_cons_of_neg (by simpa using hb), List.dropWhile_cons_of_neg (by simpa using hb)]
      rfl
    · rw [List.takeWhile_cons_of_pos (by simpa using hb), List.dropWhile_cons_of_pos (by simpa using hb), ← ih]
      rfl

/-- A path is made of slashes alone, or has a first name, which the loop finds. -/
theorem splitHead_cases (p : Bytes) :
    ((∀ b ∈ p, b = 47) ∧ (splitHead [] p).1 = []) ∨
      ∃ name tail, splitHead [] p = (name, tail) ∧ name ≠ [] ∧ names p = name :: names tail ∧
        trailing p = trailing tail ∧ tail.length < p.length := by
  rw [splitHead_nil]
  have hsplit : p.takeWhile (· = 47) ++ p.dropWhile (· = 47) = p := List.takeWhile_append_dropWhile
  have hnames := names_dropWhile p
  have hfirst := List.head?_dropWhile_not (fun b : UInt8 => decide (b = 47)) p
  generalize p.dropWhile (· = 47) = q at hsplit hnames hfirst ⊢
  cases q with
  | nil =>
    refine .inl ⟨?_, rfl⟩
    rw [List.append_nil] at hsplit
    intro b hb
    rw [← hsplit] at hb
    simpa using List.mem_takeWhile_imp hb
  | cons c q =>
    obtain ⟨hne, hfound, htrailing, hlen⟩ := first_name (c := c) (by simpa using hfirst) q (p.takeWhile (· = 47))
    refine .inr ⟨_, _, rfl, hne, hnames ▸ hfound, hsplit ▸ htrailing, ?_⟩
    have hle := congrArg List.length hsplit
    rw [List.length_append] at hle
    omega

/-! ### What is found -/

variable {P : PathLib} {L : DirLib} {disk : Disk} {subpath : Bytes} {items : List (Bytes × Tree)} {dir : List Entry}

/-- The entry of a name is that of the item with this name. -/
theorem find_entry (name : Bytes) : {items : List (Bytes × Tree)} → {dir : List Entry} → DenotesAll L disk items dir →
    (items.find? fun item => item.1 = name) = none ∧ (dir.find? fun e => e.name = name) = none ∨
      ∃ tree e content, (items.find? fun item => item.1 = name) = some (name, tree) ∧
        (dir.find? fun e => e.name = name) = some e ∧ Reads L disk e.ref content ∧ Denotes L disk tree e.ref.type content
  | _, _, .nil => .inl ⟨rfl, rfl⟩
  | _, _, .cons (e := e) hreads htree hrest => by
    by_cases hname : e.name = name
    · subst hname
      exact .inr ⟨_, e, _, List.find?_cons_of_pos (by simp), List.find?_cons_of_pos (by simp), hreads, htree⟩
    · rw [List.find?_cons_of_neg (by simpa using hname), List.find?_cons_of_neg (by simpa using hname)]
      exact find_entry name hrest

/-- The line for an entry is that for its item. -/
theorem entry_line (hheads : L.fileHeaders = rawFileHeaders) {tree : Tree} {e : Entry} {content : Bytes}
    (hreads : Reads L disk e.ref content) (htree : Denotes L disk tree e.ref.type content) :
    (e.name, if e.ref.type = directoryType then none else some e.ref.size.toNat) = itemLine (e.name, tree) := by
  rw [hreads.size]
  generalize e.ref.type = type at htree
  cases htree with
  | file hsmall => rw [itemLine, if_neg (by decide), if_neg (Nat.not_lt.mpr hsmall)]
  | large hlarge hcount hexport =>
    rw [itemLine, if_neg (by decide), if_pos hlarge, hheads, length_rawFileHeader, hcount]
    rfl
  | directory hall => rw [itemLine, if_pos rfl]

private theorem entry_lines (hheads : L.fileHeaders = rawFileHeaders) : {items : List (Bytes × Tree)} → {dir : List Entry} →
    DenotesAll L disk items dir →
      dir.map (fun e => (e.name, if e.ref.type = directoryType then none else some e.ref.size.toNat)) = items.map itemLine
  | _, _, .nil => rfl
  | _, _, .cons hreads htree hrest => by
    rw [List.map_cons, List.map_cons, entry_line hheads hreads htree, entry_lines hheads hrest]

theorem listDirectory_eq (hheads : L.fileHeaders = rawFileHeaders) (h : DenotesAll L disk items dir) (p : Bytes) :
    listDirectory P p dir = listPage P p (items.map itemLine) := by
  rw [listDirectory, entry_lines hheads h]

/-! ### The walk -/

private theorem getDirectory_pack (L : DirLib) (dir : List Entry) :
    getDirectory L (directoryType :: L.directories.pack dir) = some (some dir) := by
  have hunpack := L.directories.unpack_pack dir []
  rw [List.append_nil] at hunpack
  rw [getDirectory, if_pos rfl, hunpack]
  rfl

private theorem getFileData_directory (data : Bytes) : getFileData (directoryType :: data) = none := by
  rw [getFileData, if_neg (by decide)]

/-- No entry is without a name. -/
theorem find_unnamed (hnamed : ∀ name tree, (name, tree) ∈ items → name ≠ []) (h : DenotesAll L disk items dir) :
    (dir.find? fun e => e.name = []) = none := by
  rcases find_entry [] h with ⟨-, hentry⟩ | ⟨tree, e, content, hitem, -⟩
  · exact hentry
  · exact absurd rfl (hnamed [] tree (List.mem_of_find?_eq_some hitem))

/-- A file has no names under it. -/
theorem replyAt_file (P : PathLib) (data p subpath : Bytes) :
    replyAt P (.file data) p subpath =
      if subpath ≠ [] then .thrown else if IMBED_THRESHOLD < data.length then .silent else .ok data := by
  rw [replyAt]
  rcases splitHead_cases subpath with ⟨hall, -⟩ | ⟨name, tail, -, -, hnames, -, hlen⟩
  · obtain ⟨hnone, htrailing⟩ := names_slashes hall
    rw [hnone, htrailing]
    rfl
  · have hne : subpath ≠ [] := by
      rintro rfl
      exact Nat.not_lt_zero _ hlen
    rw [hnames, if_pos hne]
    rfl

private theorem replyAt_root (hroot : P.atRoot subpath = true) (p : Bytes) :
    replyAt P (.directory items) p subpath = .ok (listPage P p (items.map itemLine)) := by
  obtain ⟨hnone, htrailing⟩ := names_slashes (P.only subpath hroot)
  rw [replyAt, hnone, htrailing]
  exact if_pos hroot

theorem replyAt_slashes {subpath : Bytes} (hall : ∀ b ∈ subpath, b = 47) (hroot : ¬P.atRoot subpath = true) (p : Bytes) :
    replyAt P (.directory items) p subpath = .thrown := by
  obtain ⟨hnone, htrailing⟩ := names_slashes hall
  rw [replyAt, hnone, htrailing]
  exact if_neg hroot

/-- The first name leads to its item, and the rest on from there. -/
theorem replyAt_name {subpath name tail : Bytes} (hnames : names subpath = name :: names tail)
    (htrailing : trailing subpath = trailing tail) (p : Bytes) :
    replyAt P (.directory items) p subpath =
      match items.find? fun item => item.1 = name with
      | some item => replyAt P item.2 (P.join p name) tail
      | none => .thrown := by
  rw [replyAt, hnames, htrailing, find]
  cases items.find? fun item => item.1 = name with
  | none => rfl
  | some item => rfl

/-- `handle_file_ref` replies as the tree does whose content its reference has. -/
theorem handleFileRef_eq (hheads : L.fileHeaders = rawFileHeaders) {fuel : Nat} {r : StoredRef} {tree : Tree}
    {content p subpath : Bytes} (hreads : Reads L disk r content) (htree : Denotes L disk tree r.type content)
    (hplain : Plain tree) (hfuel : subpath.length < fuel) :
    handleFileRef P L disk fuel r p subpath = replyAt P tree p subpath := by
  induction fuel generalizing r tree content p subpath with
  | zero => omega
  | succ fuel ih =>
    obtain ⟨-, hget⟩ := hreads
    rw [handleFileRef, hget]
    generalize r.type = type at htree
    cases htree with
    | file hsmall =>
      rw [replyAt_file, if_neg (Nat.not_lt.mpr hsmall)]
      simp [fileDataType, directoryType, getFileData]
    | large hlarge hcount hexport =>
      rw [replyAt_file, if_pos hlarge]
      simp [fileDataType, directoryType, fileHeaderType, getFileData, getDirectory]
    | @directory items dir hall =>
      cases hplain with
      | directory _ htrees hnamed _ =>
        rw [if_neg (by simp)]
        dsimp only
        rw [getFileData_directory, getDirectory_pack]
        dsimp only
        by_cases hroot : P.atRoot subpath = true
        · rw [if_pos hroot, replyAt_root hroot, listDirectory_eq hheads hall]
        · rw [if_neg hroot]
          rcases splitHead_cases subpath with ⟨hslashes, hnone⟩ | ⟨name, tail, hhead, -, hnames, htrailing, hlen⟩
          · have hlost : splitHead [] subpath = ([], (splitHead [] subpath).2) := Prod.ext hnone rfl
            rw [replyAt_slashes hslashes hroot, hlost]
            dsimp only
            rw [find_unnamed hnamed hall]
          · rw [replyAt_name hnames htrailing, hhead]
            dsimp only
            rcases find_entry name hall with ⟨hitem, hentry⟩ | ⟨tree, e, content, hitem, hentry, hreads, htree⟩
            · rw [hitem, hentry]
            · rw [hitem, hentry]
              have hmem := List.mem_of_find?_eq_some hitem
              exact ih hreads htree (htrees name tree hmem) (by omega)

theorem opened_grow {L : Lib} {disk disk' : Disk} {l : Link} {data : Bytes} (hgrows : Grows disk disk')
    (h : opened L disk l = some data) : opened L disk' l = some data := by
  obtain ⟨ch, hch, rfl⟩ := Option.map_eq_some_iff.mp h
  rw [opened, getChunk_grow hgrows hch]
  rfl

theorem handleLink_file {l : Link} {data : Bytes} (h : opened L.toLib disk l = some (fileDataType :: data)) (p : Bytes) :
    handleLink P L disk l p = .ok data := by
  rw [handleLink, h]
  rfl

/-- There is no reply for the header of a large file. -/
theorem handleLink_header {l : Link} {data : Bytes} (h : opened L.toLib disk l = some (fileHeaderType :: data))
    (p : Bytes) : handleLink P L disk l p = .thrown := by
  rw [handleLink, h]
  rfl

private theorem handleLink_directory (hheads : L.fileHeaders = rawFileHeaders) {l : Link}
    (h : opened L.toLib disk l = some (directoryType :: L.directories.pack dir)) (hall : DenotesAll L disk items dir)
    (hplain : Plain (.directory items)) (p : Bytes) : handleLink P L disk l p = respond P (.directory items) p := by
  rw [handleLink, h]
  dsimp only
  rw [getFileData_directory, getDirectory_pack, respond]
  dsimp only
  cases hplain with
  | directory _ htrees hnamed _ =>
    by_cases hroot : P.atRoot p = true
    · rw [if_pos hroot, if_pos hroot, listDirectory_eq hheads hall]
    · rw [if_neg hroot, if_neg hroot]
      cases p with
      | nil => exact absurd P.nil hroot
      | cons c rest =>
        by_cases hc : c = 47
        · subst hc
          rw [List.takeWhile_cons_of_neg (by simp), find_unnamed hnamed hall]
          rfl
        · have htail : (c :: rest).drop ((c :: rest).takeWhile (· ≠ 47)).length = (c :: rest).dropWhile (· ≠ 47) :=
            drop_name (c :: rest)
          obtain ⟨hne, hnames, htrailing, -⟩ := first_name hc rest []
          rw [if_neg (by simpa using hc), htail, replyAt_name hnames htrailing]
          rcases find_entry ((c :: rest).takeWhile (· ≠ 47)) hall with
            ⟨hitem, hentry⟩ | ⟨tree, e, content, hitem, hentry, hreads, htree⟩
          · rw [hitem, hentry]
          · rw [hitem, hentry]
            have hmem := List.mem_of_find?_eq_some hitem
            exact handleFileRef_eq hheads hreads htree (htrees _ tree hmem) (Nat.lt_succ_self _)

/-! ### Imports -/

/-- Where a file was imported: a small one is served whole, and a large one not at all. -/
theorem handleLink_import (hheads : L.fileHeaders = rawFileHeaders) {fuel : Nat} {disk₀ disk' : Disk} {data : Bytes}
    {l : Link} (himport : «import» L.toLib fuel disk₀ data = some (l, disk')) (hgrows : Grows disk' disk)
    (hfree : disk'.clash = false) (p : Bytes) : handleLink P L disk l p = respond P (.file data) p := by
  rw [«import»] at himport
  rw [respond]
  split_ifs at himport ⊢ with hlarge
  · obtain ⟨⟨head, disk₁⟩, -, hrest⟩ := Option.bind_eq_some_iff.mp himport
    dsimp only at hrest
    split_ifs at hrest with hfits
    have hlen : (headerBuffer (L.fileHeaders.pack head)).length < 2 ^ 32 := by
      rw [length_headerBuffer]
      exact hfits.trans_lt (by decide)
    have hopened := opened_grow hgrows (storeTyped_opened hrest hfree hlen)
    have hlong := length_rawFileHeader head
    rw [hheads] at hopened
    cases hpacked : rawFileHeaders.pack head with
    | nil =>
      rw [hpacked, List.length_nil] at hlong
      omega
    | cons b rest =>
      rw [hpacked, headerBuffer_cons] at hopened
      exact handleLink_header hopened p
  · have hlen : (fileDataType :: data).length < 2 ^ 32 := by
      have hthreshold : IMBED_THRESHOLD + 1 < 2 ^ 32 := by decide
      rw [List.length_cons]
      omega
    exact handleLink_file (opened_grow hgrows (storeTyped_opened himport hfree hlen)) p

/-- All that the import of what lies under a path asks the file database for. -/
def treeContents (L : DirLib) (fuel : Nat) (store : Store) : Tree → List (Bytes × UInt8)
  | .directory items => directoryContents L fuel store items
  | .file _ | .other => []

/-- Whatever was imported before, and whatever is stored since: every request under the link of an imported file or
directory is answered as a walk through the tree answers it, for whatever path. -/
theorem imported_served (P : PathLib) {cs : List (Bytes × UInt8)} {store store' : Store} {fuel : Nat} {t : Tree} {l : Link}
    (hdirs : L.directories = rawDirectories) (hheads : L.fileHeaders = rawFileHeaders) (hstore : History L cs store)
    (himport : importPath L fuel store t = some (l, store')) (hplain : Plain t)
    (hdistinct : Distinct L (cs ++ treeContents L fuel store t)) (hgrows : Grows store'.disk disk) (hsound : Sound disk)
    (p : Bytes) : handleLink P L disk l p = respond P t p := by
  have hfree : store'.disk.clash = false := hgrows.clash hsound.clash
  cases t with
  | file data =>
    obtain ⟨⟨l', disk'⟩, hfile, hx⟩ := Option.bind_eq_some_iff.mp himport
    obtain ⟨rfl, rfl⟩ := Prod.mk.inj (Option.some.inj hx)
    exact handleLink_import hheads hfile hgrows hfree p
  | directory items =>
    obtain ⟨⟨dir, store₁⟩, hdir, hrest⟩ := Option.bind_eq_some_iff.mp himport
    dsimp only at hrest
    split_ifs at hrest with hfits
    obtain ⟨⟨l', disk'⟩, htyped, hx⟩ := Option.bind_eq_some_iff.mp hrest
    obtain ⟨rfl, rfl⟩ := Prod.mk.inj (Option.some.inj hx)
    have hlen : (directoryType :: L.directories.pack dir).length < 2 ^ 32 := by
      have hmax : MAX_CHUNK_SIZE + 1 < 2 ^ 32 := by decide
      rw [List.length_cons]
      omega
    have hopened := opened_grow hgrows (storeTyped_opened htyped hfree hlen)
    have hgrows' : Grows store₁.disk disk := (storeTyped_grows htyped).trans hgrows
    have hdenotes := importDirectory_denotes hdirs hheads hstore hdir hplain hdistinct (hsound.of_grows hgrows')
    exact handleLink_directory hheads hopened (hdenotes.grow hgrows') hplain p
  | other => cases hplain

def shortPaths : PathLib where
  atRoot p := p = [] ∨ p = [47]
  join p name := if p.getLast? = some 47 then p ++ name else p ++ 47 :: name
  nil := by decide
  slash := by decide
  only p hp b hb := by
    rcases of_decide_eq_true hp with rfl | rfl
    · cases hb
    · exact List.mem_singleton.mp hb

/-- The file `d/b` is asked for with two slashes between the names, and then with one behind it. -/
theorem imported_served_nested : ∃ l store', importPath nestedLib 3 namedStore (.directory nestedItems) = some (l, store') ∧
    handleLink shortPaths nestedLib store'.disk l [100, 47, 47, 98] = .ok [1, 2, 3] ∧
    handleLink shortPaths nestedLib store'.disk l [100, 47, 98, 47] = .thrown := by
  have hsome : (importPath nestedLib 3 namedStore (.directory nestedItems)).isSome = true := by decide +kernel
  have hzero : ((importPath nestedLib 3 namedStore (.directory nestedItems)).map fun x => x.2.disk.files 0) =
      some none := by decide +kernel
  have hclash : ((importPath nestedLib 3 namedStore (.directory nestedItems)).map fun x => x.2.disk.clash) =
      some false := by decide +kernel
  obtain ⟨⟨l, store'⟩, himport⟩ := Option.isSome_iff_exists.mp hsome
  rw [himport] at hzero hclash
  have hserved := imported_served shortPaths rfl rfl (.nil _) himport nestedItems_plain nested_distinct (.refl _)
    ⟨Option.some.inj hclash, Option.some.inj hzero⟩
  refine ⟨l, store', himport, (hserved _).trans ?_, (hserved _).trans ?_⟩
  · decide +kernel
  · decide +kernel

end Tornet.Tproxy
