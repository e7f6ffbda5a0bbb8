import Tornet.Cafs.ReadBack

/-! Which bytes `get_chunk` returns for a chunk file with any content and for any range: its loop with the widths of its
variables, and for each byte of the result where it was copied from. -/
namespace Tornet.Cafs
open Library

/-- A byte of the result. `source` is a history variable: the position in the chunk it was copied from. -/
structure Cell where
  byte : UInt8
  source : Option Nat
  deriving DecidableEq, Repr

/-- How `get_chunk` ends without a result: it throws, or it has copied bytes from outside of a slice. -/
inductive Fault where
  | thrown | outside
  deriving DecidableEq, Repr

/-- `int start = (pos-cpos)`. -/
def startOf (pos cpos : BitVec 32) : Int := (pos - cpos).toInt

/-- `int left = tmp.size()-start` and `int cbytes = min( size_t( left ), size_t( ds.remaining() ) )`. -/
def cbytesOf (size : Nat) (start : Int) (remaining : Nat) : Int :=
  let left := (BitVec.ofInt 32 (size - start)).toInt
  (BitVec.ofNat 32 (min (BitVec.ofInt 64 left).toNat remaining)).toInt

/-- The bytes at `tmp.data() + start` are bytes of `tmp`. -/
def InSlice (size : Nat) (start : Int) (cbytes : Nat) : Prop := cbytes = 0 ∨ 0 ≤ start ∧ start + cbytes ≤ size

instance (size : Nat) (start : Int) (cbytes : Nat) : Decidable (InSlice size start cbytes) :=
  inferInstanceAs (Decidable (_ ∨ _))

def cellsAt (source : Nat) : Bytes → List Cell
  | [] => []
  | b :: rest => ⟨b, some source⟩ :: cellsAt (source + 1) rest

/-- The slice that begins at `base` has the hash that the header has for it. -/
def Matches (L : Lib) (input : Bytes) (x : Nat × Slice) : Prop :=
  L.sha1 (readBytes x.2.size.toNat (input.drop x.1)) = x.2.hash

instance (L : Lib) (input : Bytes) (x : Nat × Slice) : Decidable (Matches L input x) :=
  inferInstanceAs (Decidable (_ = _))

/-- The loop of `get_chunk`. A stream that is given more than it has room for throws or writes nothing. `base` is a history
variable: the position of the slice without the wrap of `cpos`. -/
def copySlices (throws : Bool) (L : Lib) (input : Bytes) (pos cpos : BitVec 32) (remaining base : Nat) :
    ChunkHeader → Except Fault (List Cell)
  | [] => .ok []
  | slice :: rest =>
    if cpos ≤ pos ∧ pos < cpos + slice.size then
      if Matches L input (base, slice) then
        let tmp := readBytes slice.size.toNat (input.drop base)
        let start := startOf pos cpos
        let cbytes := cbytesOf tmp.length start remaining
        -- a negative number is a huge `size_t`
        if cbytes < 0 then
          if throws then .error .thrown
          else copySlices throws L input (pos + BitVec.ofInt 32 cbytes) (cpos + slice.size) remaining
            (base + slice.size.toNat) rest
        else if InSlice tmp.length start cbytes.toNat then
          let written := cellsAt (base + start.toNat) ((tmp.drop start.toNat).take cbytes.toNat)
          if remaining - cbytes.toNat = 0 then .ok written
          else do
            let more ← copySlices throws L input (pos + BitVec.ofNat 32 cbytes.toNat) (cpos + slice.size)
              (remaining - cbytes.toNat) (base + slice.size.toNat) rest
            .ok (written ++ more)
        else .error .outside
      else .error .thrown
    else if remaining = 0 then .ok []
    else copySlices throws L input pos (cpos + slice.size) remaining (base + slice.size.toNat) rest

/-- The size of the result; `-1` stands for the size of the chunk. -/
def sizeOf (head : ChunkHeader) (s : BitVec 32) : BitVec 32 :=
  if s = -1 then BitVec.ofNat 32 (calculateSize head) else s

/-- `get_chunk`: what was not written is zero. -/
def readChunk (throws : Bool) (L : Lib) (disk : Disk) (id : Sha1) (pos s : BitVec 32) : Except Fault (List Cell) :=
  match disk.files id with
  | none => .error .thrown
  | some file =>
    match L.chunkHeaders.unpack file with
    | none => .error .thrown
    | some (head, input) => do
      let size := (sizeOf head s).toNat
      let written ← copySlices throws L input pos 0 size 0 head
      .ok (written ++ List.replicate (size - written.length) ⟨0, none⟩)

/-! ### What it should return -/

def located (base : Nat) : ChunkHeader → List (Nat × Slice)
  | [] => []
  | slice :: rest => (base, slice) :: located (base + slice.size.toNat) rest

/-- The byte at a position of the chunk, out of a slice that matches its hash. -/
def VerifiedByte (L : Lib) (head : ChunkHeader) (input : Bytes) (p : Nat) (b : UInt8) : Prop :=
  ∃ x ∈ located 0 head, Matches L input x ∧ x.1 ≤ p ∧
    (readBytes x.2.size.toNat (input.drop x.1))[p - x.1]? = some b

/-- It throws, or it returns as many bytes as it was asked for, and they are the verified bytes of the range. -/
def Verified (L : Lib) (disk : Disk) (id : Sha1) (pos s : BitVec 32) : Except Fault (List Cell) → Prop
  | .error .thrown => True
  | .error .outside => False
  | .ok v => ∃ file ∈ disk.files id, ∃ x ∈ L.chunkHeaders.unpack file,
      v.length = (sizeOf x.1 s).toNat ∧
        ∀ i, ∀ c ∈ v[i]?, c.source = some (pos.toNat + i) ∧ VerifiedByte L x.1 x.2 (pos.toNat + i) c.byte

/-! ### When it does -/

/-- A slice that the loop reads, and the number of bytes that it then gives to the stream. -/
structure Reading where
  base : Nat
  slice : Slice
  cbytes : Int

/-- The loop throws there: the slice does not match, or the stream has no room for that number. -/
def Reading.Throws (throws : Bool) (L : Lib) (input : Bytes) (y : Reading) : Prop :=
  ¬ Matches L input (y.base, y.slice) ∨ throws = true ∧ y.cbytes < 0

/-- The slices that the loop reads, if it does not throw before, by their sizes alone. -/
def entered (pos cpos : BitVec 32) (remaining base : Nat) : ChunkHeader → List Reading
  | [] => []
  | slice :: rest =>
    if cpos ≤ pos ∧ pos < cpos + slice.size then
      let start := startOf pos cpos
      let cbytes := cbytesOf slice.size.toNat start remaining
      ⟨base, slice, cbytes⟩ ::
        if cbytes < 0 then
          entered (pos + BitVec.ofInt 32 cbytes) (cpos + slice.size) remaining (base + slice.size.toNat) rest
        else if InSlice slice.size.toNat start cbytes.toNat ∧ remaining - cbytes.toNat ≠ 0 then
          entered (pos + BitVec.ofNat 32 cbytes.toNat) (cpos + slice.size) (remaining - cbytes.toNat)
            (base + slice.size.toNat) rest
        else []
    else if remaining = 0 then []
    else entered pos (cpos + slice.size) remaining (base + slice.size.toNat) rest

/-- The end of the slices before `cpos` wraps. -/
def reach (base : Nat) : ChunkHeader → Nat
  | [] => base
  | slice :: rest => if base + slice.size.toNat < 2 ^ 32 then reach (base + slice.size.toNat) rest else base

/-- The part of a range in a slice begins less than 2 GiB behind the start of the slice, and has less than 2 GiB. -/
def Narrow (p stop : Nat) (x : Nat × Slice) : Prop :=
  x.1 < stop → p < x.1 + x.2.size.toNat →
    max p x.1 - x.1 < 2 ^ 31 ∧ min stop (x.1 + x.2.size.toNat) - max p x.1 < 2 ^ 31

def Covered (head : ChunkHeader) (base p size : Nat) : Prop :=
  p + size ≤ reach base head ∧ ∀ x ∈ located base head, Narrow p (p + size) x

/-- There is no such chunk, or the loop throws at one of the slices that it reads, or the range is empty or covered. -/
def Refusable (throws : Bool) (L : Lib) (disk : Disk) (id : Sha1) (pos s : BitVec 32) : Prop :=
  ∀ file ∈ disk.files id, ∀ x ∈ L.chunkHeaders.unpack file,
    (∃ y ∈ entered pos 0 (sizeOf x.1 s).toNat 0 x.1, y.Throws throws L x.2) ∨ (sizeOf x.1 s).toNat = 0 ∨
      Covered x.1 0 pos.toNat (sizeOf x.1 s).toNat

variable {throws : Bool} {L : Lib} {disk : Disk} {id : Sha1} {input : Bytes} {pos cpos : BitVec 32}
  {remaining base : Nat} {head rest : ChunkHeader} {slice : Slice} {v : List Cell}

/-! ### The steps of the loop -/

theorem length_readBytes (n : Nat) (bytes : Bytes) : (readBytes n bytes).length = n := by
  rw [readBytes, List.length_append, List.length_take, List.length_replicate]
  omega

private theorem length_cellsAt (source : Nat) (bytes : Bytes) : (cellsAt source bytes).length = bytes.length := by
  induction bytes generalizing source with
  | nil => rfl
  | cons b rest ih => rw [cellsAt, List.length_cons, List.length_cons, ih]

private theorem cellsAt_get {source i : Nat} {bytes : Bytes} {c : Cell} (h : (cellsAt source bytes)[i]? = some c) :
    c.source = some (source + i) ∧ bytes[i]? = some c.byte := by
  induction bytes generalizing source i with
  | nil => cases h
  | cons b rest ih =>
    cases i with
    | zero =>
      obtain rfl := Option.some.inj h
      exact ⟨rfl, rfl⟩
    | succ i =>
      obtain ⟨hsource, hbyte⟩ := ih h
      exact ⟨by rw [hsource, Nat.add_right_comm, Nat.add_assoc], hbyte⟩

private theorem sources_cellsAt (source : Nat) (bytes : Bytes) :
    (cellsAt source bytes).map Cell.source = (List.range' source bytes.length).map some := by
  induction bytes generalizing source with
  | nil => rfl
  | cons b rest ih =>
    rw [cellsAt, List.map_cons, ih, List.length_cons, List.range'_succ, List.map_cons]

/-- The loop ends as the rest of it does. -/
theorem more_error {x : Except Fault (List Cell)} {fault : Fault} :
    (do let more ← x; Except.ok (v ++ more)) = .error fault ↔ x = .error fault := by
  cases x with
  | error f => rfl
  | ok more => exact iff_of_false nofun nofun

/-- All a turn of the loop can do. -/
theorem copySlices_cases (h : copySlices throws L input pos cpos remaining base (slice :: rest) = .ok v) :
    (cpos ≤ pos ∧ pos < cpos + slice.size ∧ Matches L input (base, slice) ∧
      ∃ start, ∃ cbytes : Nat, startOf pos cpos = start ∧ cbytesOf slice.size.toNat start remaining = cbytes ∧
        InSlice slice.size.toNat start cbytes ∧ ∃ more,
          v = cellsAt (base + start.toNat)
            (((readBytes slice.size.toNat (input.drop base)).drop start.toNat).take cbytes) ++ more ∧
          (remaining - cbytes = 0 ∧ more = [] ∨ remaining - cbytes ≠ 0 ∧
            copySlices throws L input (pos + BitVec.ofNat 32 cbytes) (cpos + slice.size) (remaining - cbytes)
              (base + slice.size.toNat) rest = .ok more)) ∨
    (cpos ≤ pos ∧ pos < cpos + slice.size ∧ cbytesOf slice.size.toNat (startOf pos cpos) remaining < 0 ∧
      ∃ pos', copySlices throws L input pos' (cpos + slice.size) remaining (base + slice.size.toNat) rest = .ok v) ∨
    (¬ (cpos ≤ pos ∧ pos < cpos + slice.size) ∧ (remaining = 0 ∧ v = [] ∨ remaining ≠ 0 ∧
      copySlices throws L input pos (cpos + slice.size) remaining (base + slice.size.toNat) rest = .ok v)) := by
  rw [copySlices] at h
  simp only [length_readBytes] at h
  split_ifs at h with hin hmatch hneg hthrows hslice hdone hzero
  · exact .inr (.inl ⟨hin.1, hin.2, hneg, _, h⟩)
  · have hcbytes : cbytesOf slice.size.toNat (startOf pos cpos) remaining =
        ((cbytesOf slice.size.toNat (startOf pos cpos) remaining).toNat : Int) := (Int.toNat_of_nonneg (not_lt.1 hneg)).symm
    exact .inl ⟨hin.1, hin.2, hmatch, _, _, rfl, hcbytes, hslice, [],
      by rw [List.append_nil]; exact (Except.ok.inj h).symm, .inl ⟨hdone, rfl⟩⟩
  · have hcbytes : cbytesOf slice.size.toNat (startOf pos cpos) remaining =
        ((cbytesOf slice.size.toNat (startOf pos cpos) remaining).toNat : Int) := (Int.toNat_of_nonneg (not_lt.1 hneg)).symm
    generalize (cbytesOf slice.size.toNat (startOf pos cpos) remaining).toNat = cbytes at h hslice hdone hcbytes
    cases hmore : copySlices throws L input (pos + BitVec.ofNat 32 cbytes) (cpos + slice.size) (remaining - cbytes)
        (base + slice.size.toNat) rest with
    | error f =>
      rw [hmore] at h
      cases h
    | ok more =>
      rw [hmore] at h
      exact .inl ⟨hin.1, hin.2, hmatch, _, _, rfl, hcbytes, hslice, more, (Except.ok.inj h).symm, .inr ⟨hdone, hmore⟩⟩
  · exact .inr (.inr ⟨hin, .inl ⟨hzero, (Except.ok.inj h).symm⟩⟩)
  · exact .inr (.inr ⟨hin, .inr ⟨hzero, h⟩⟩)

private theorem cbytesOf_le (size : Nat) (start : Int) (remaining : Nat) : cbytesOf size start remaining ≤ remaining := by
  have hle : ((BitVec.ofNat 32 (min (BitVec.ofInt 64 (BitVec.ofInt 32 (size - start)).toInt).toNat remaining)).toInt) ≤
      (min (BitVec.ofInt 64 (BitVec.ofInt 32 (size - start)).toInt).toNat remaining : Nat) := by
    rw [BitVec.toInt_eq_toNat_cond, BitVec.toNat_ofNat]
    have := Nat.mod_le (min (BitVec.ofInt 64 (BitVec.ofInt 32 (size - start)).toInt).toNat remaining) (2 ^ 32)
    split_ifs <;> omega
  exact hle.trans (by exact_mod_cast min_le_right _ _)

theorem length_copied {size cbytes : Nat} {start : Int} (source : Nat) (h : InSlice size start cbytes) (bytes : Bytes)
    (hlen : bytes.length = size) :
    (cellsAt source ((bytes.drop start.toNat).take cbytes)).length = cbytes := by
  rw [length_cellsAt, List.length_take, List.length_drop, hlen]
  obtain rfl | ⟨hstart, hin⟩ := h
  · exact Nat.zero_min _
  · omega

theorem length_copySlices (h : copySlices throws L input pos cpos remaining base head = .ok v) : v.length ≤ remaining := by
  induction head generalizing pos cpos remaining base v with
  | nil =>
    obtain rfl := Except.ok.inj h
    exact Nat.zero_le _
  | cons slice rest ih =>
    obtain ⟨-, -, -, start, cbytes, -, hcbytes, hin, more, rfl, hmore⟩ | ⟨-, -, -, pos', hrest⟩ |
      ⟨-, ⟨-, rfl⟩ | ⟨-, hrest⟩⟩ := copySlices_cases h
    · rw [List.length_append, length_copied _ hin _ (length_readBytes _ _)]
      have hle := cbytesOf_le slice.size.toNat start remaining
      rw [hcbytes, Int.ofNat_le] at hle
      obtain ⟨-, rfl⟩ | ⟨-, hmore⟩ := hmore
      · exact hle
      · have hih := ih hmore
        omega
    · exact ih hrest
    · exact Nat.zero_le _
    · exact ih hrest

theorem located_ge {x : Nat × Slice} (h : x ∈ located base head) : base ≤ x.1 := by
  induction head generalizing base with
  | nil => cases h
  | cons slice rest ih =>
    obtain rfl | h := List.mem_cons.1 h
    · exact le_rfl
    · exact (Nat.le_add_right _ _).trans (ih h)

/-! ### What was copied was verified -/

/-- Every byte that the loop copies is out of a slice behind `base` that matches its hash. -/
theorem copySlices_verified (h : copySlices throws L input pos cpos remaining base head = .ok v) :
    ∀ c ∈ v, ∃ p, c.source = some p ∧ ∃ x ∈ located base head, Matches L input x ∧ x.1 ≤ p ∧
      (readBytes x.2.size.toNat (input.drop x.1))[p - x.1]? = some c.byte := by
  induction head generalizing pos cpos remaining base v with
  | nil =>
    obtain rfl := Except.ok.inj h
    exact fun c hc => absurd hc List.not_mem_nil
  | cons slice rest ih =>
    intro c hc
    obtain ⟨-, -, hmatch, start, cbytes, -, -, -, more, rfl, hmore⟩ | ⟨-, -, -, pos', hrest⟩ |
      ⟨-, ⟨-, rfl⟩ | ⟨-, hrest⟩⟩ := copySlices_cases h
    · obtain hc | hc := List.mem_append.1 hc
      · obtain ⟨i, hi⟩ := List.mem_iff_getElem?.1 hc
        obtain ⟨hsource, hbyte⟩ := cellsAt_get hi
        refine ⟨_, hsource, (base, slice), List.mem_cons_self, hmatch, by omega, ?_⟩
        rw [List.getElem?_take] at hbyte
        split_ifs at hbyte with hlt
        · rw [List.getElem?_drop] at hbyte
          rw [← hbyte]
          congr 1
          omega
      · obtain ⟨-, rfl⟩ | ⟨-, hmore⟩ := hmore
        · cases hc
        · obtain ⟨p, hp, x, hx, hverified⟩ := ih hmore c hc
          exact ⟨p, hp, x, List.mem_cons_of_mem _ hx, hverified⟩
    · obtain ⟨p, hp, x, hx, hverified⟩ := ih hrest c hc
      exact ⟨p, hp, x, List.mem_cons_of_mem _ hx, hverified⟩
    · cases hc
    · obtain ⟨p, hp, x, hx, hverified⟩ := ih hrest c hc
      exact ⟨p, hp, x, List.mem_cons_of_mem _ hx, hverified⟩

/-- It throws where a slice that is read does not match, or is to give the stream too much. -/
theorem copySlices_thrown : copySlices throws L input pos cpos remaining base head = .error .thrown ↔
    ∃ y ∈ entered pos cpos remaining base head, y.Throws throws L input := by
  induction head generalizing pos cpos remaining base with
  | nil => simp [copySlices, entered]
  | cons slice rest ih =>
    rw [copySlices, entered]
    simp only [length_readBytes]
    by_cases hin : cpos ≤ pos ∧ pos < cpos + slice.size
    · rw [if_pos hin, if_pos hin]
      by_cases hmatch : Matches L input (base, slice)
      · rw [if_pos hmatch]
        have hhere (cbytes : Int) (hno : ¬ (throws = true ∧ cbytes < 0)) (l : List Reading) :
            (∃ y ∈ ⟨base, slice, cbytes⟩ :: l, y.Throws throws L input) ↔ ∃ y ∈ l, y.Throws throws L input := by
          have hfalse : ¬ Reading.Throws throws L input ⟨base, slice, cbytes⟩ := by
            rintro (h | h)
            · exact h hmatch
            · exact hno h
          simp [hfalse]
        by_cases hneg : cbytesOf slice.size.toNat (startOf pos cpos) remaining < 0
        · rw [if_pos hneg, if_pos hneg]
          cases throws with
          | true => exact iff_of_true rfl ⟨_, List.mem_cons_self, .inr ⟨rfl, hneg⟩⟩
          | false =>
            rw [if_neg Bool.false_ne_true, hhere _ (fun h => Bool.false_ne_true h.1)]
            exact ih
        rw [if_neg hneg, if_neg hneg, hhere _ (fun h => hneg h.2)]
        by_cases hslice : InSlice slice.size.toNat (startOf pos cpos)
            (cbytesOf slice.size.toNat (startOf pos cpos) remaining).toNat
        · rw [if_pos hslice]
          by_cases hdone : remaining - (cbytesOf slice.size.toNat (startOf pos cpos) remaining).toNat = 0
          · simp [hdone]
          · rw [if_neg hdone, if_pos ⟨hslice, hdone⟩, ← ih, more_error]
        · simp [hslice]
      · rw [if_neg hmatch]
        exact iff_of_true rfl ⟨_, List.mem_cons_self, .inl hmatch⟩
    · rw [if_neg hin, if_neg hin]
      split_ifs
      · simp
      · exact ih

/-! ### Where the slices cover the range -/

/-- Nothing is copied from outside of a slice when nothing remains. -/
theorem copySlices_zero : copySlices throws L input pos cpos 0 base head ≠ .error .outside := by
  induction head generalizing cpos base with
  | nil => simp [copySlices]
  | cons slice rest ih =>
    have hzero (start : Int) : cbytesOf slice.size.toNat start 0 = 0 := by simp [cbytesOf]
    rw [copySlices]
    simp only [length_readBytes, hzero, lt_irrefl, if_false, Int.toNat_zero]
    split_ifs with _ _ hin
    · simp
    · exact absurd (.inl rfl) hin
    · simp
    · simp

variable {p c z : Nat}

theorem startOf_eq (hc : c ≤ p) (hp : p < 2 ^ 32) :
    startOf (BitVec.ofNat 32 p) (BitVec.ofNat 32 c) = if p - c < 2 ^ 31 then (p - c : Int) else p - c - 2 ^ 32 := by
  rw [startOf, BitVec.toInt_eq_toNat_cond, BitVec.toNat_sub, toNat_pos hp, toNat_pos (by omega)]
  split_ifs <;> omega

/-- The number of bytes that are left in the slice, or of those that remain, as an `int`. -/
theorem cbytesOf_eq {start : Int} (hc : c ≤ p) (hp : p < c + z) (hz : z < 2 ^ 32) (hsize : remaining < 2 ^ 32)
    (hstart : start = p - c ∨ start = p - c - 2 ^ 32) :
    cbytesOf z start remaining = if min remaining (c + z - p) < 2 ^ 31 then (min remaining (c + z - p) : Int)
      else remaining - 2 ^ 32 := by
  have hleft : (BitVec.ofInt 32 (z - start)).toInt =
      if c + z - p < 2 ^ 31 then (c + z - p : Int) else c + z - p - 2 ^ 32 := by
    rw [BitVec.toInt_ofInt, Int.bmod_def]
    split_ifs <;> omega
  -- as a `size_t` a negative number is larger than anything that remains
  have hmin : min (BitVec.ofInt 64 (BitVec.ofInt 32 (z - start)).toInt).toNat remaining =
      if c + z - p < 2 ^ 31 then min (c + z - p) remaining else remaining := by
    rw [hleft, BitVec.toNat_ofInt]
    split_ifs <;> omega
  rw [cbytesOf]
  simp only [hmin]
  rw [BitVec.toInt_eq_toNat_cond, BitVec.toNat_ofNat]
  split_ifs <;> omega

variable {start cbytes : Int}

/-- A copy stays in its slice where the conversions to `int` change nothing, or only the number of bytes that are left when
fewer remain. -/
theorem inSlice_iff_narrow (hc : c ≤ p) (hp : p < c + z) (hz : c + z < 2 ^ 32) (hremaining : 0 < remaining)
    (hsize : remaining < 2 ^ 32) (hstart : startOf (BitVec.ofNat 32 p) (BitVec.ofNat 32 c) = start)
    (hcbytes : cbytesOf z start remaining = cbytes) :
    ¬ cbytes < 0 ∧ InSlice z start cbytes.toNat ↔ p - c < 2 ^ 31 ∧ min (p + remaining) (c + z) - p < 2 ^ 31 := by
  rw [startOf_eq hc (by omega)] at hstart
  rw [cbytesOf_eq hc hp (by omega) hsize (by rw [← hstart]; split_ifs <;> simp)] at hcbytes
  rw [← hcbytes, ← hstart, InSlice]
  split_ifs <;> omega

theorem copied_eq (hc : c ≤ p) (hp : p < c + z) (hz : c + z < 2 ^ 32) (hremaining : 0 < remaining)
    (hsize : remaining < 2 ^ 32) (hstart : startOf (BitVec.ofNat 32 p) (BitVec.ofNat 32 c) = start)
    (hcbytes : cbytesOf z start remaining = cbytes) (hpos : ¬ cbytes < 0) (hin : InSlice z start cbytes.toNat) :
    start.toNat = p - c ∧ cbytes.toNat = min (c + z - p) remaining := by
  have hnarrow := (inSlice_iff_narrow hc hp hz hremaining hsize hstart hcbytes).1 ⟨hpos, hin⟩
  rw [startOf_eq hc (by omega), if_pos hnarrow.1] at hstart
  rw [cbytesOf_eq hc hp (by omega) hsize (.inl hstart.symm), if_pos (by omega)] at hcbytes
  omega

private theorem reach_ge : base ≤ reach base head := by
  induction head generalizing base with
  | nil => exact le_rfl
  | cons slice rest ih =>
    rw [reach]
    split_ifs
    · exact (Nat.le_add_right _ _).trans ih
    · exact le_rfl

/-- The loop stops at a slice where the position lies in it and `cpos` does not wrap behind it. -/
theorem stops_iff (slice : Slice) (hc : c ≤ p) (hp : p < 2 ^ 32) :
    (BitVec.ofNat 32 c ≤ BitVec.ofNat 32 p ∧ BitVec.ofNat 32 p < BitVec.ofNat 32 c + slice.size) ↔
      p < c + slice.size.toNat ∧ c + slice.size.toNat < 2 ^ 32 := by
  have hz := slice.size.isLt
  rw [BitVec.le_def, BitVec.lt_def, BitVec.toNat_add, toNat_pos hp, toNat_pos (hc.trans_lt hp)]
  omega

theorem ofNat_add_size (slice : Slice) : BitVec.ofNat 32 c + slice.size = BitVec.ofNat 32 (c + slice.size.toNat) := by
  rw [BitVec.ofNat_add, BitVec.ofNat_toNat, BitVec.setWidth_eq]

/-! The three turns of the loop, in what it needs for the rest of the range. -/

private theorem covered_skip (hskip : c + slice.size.toNat ≤ p) (hz : c + slice.size.toNat < 2 ^ 32) :
    Covered (slice :: rest) c p remaining ↔ Covered rest (c + slice.size.toNat) p remaining := by
  have hnarrow : Narrow p (p + remaining) (c, slice) := fun _ h => absurd h (by simp only; omega)
  rw [Covered, Covered, reach, if_pos hz, located, List.forall_mem_cons, and_iff_right hnarrow]

private theorem covered_wrap (hc : c ≤ p) (hremaining : 0 < remaining) (hz : ¬ c + slice.size.toNat < 2 ^ 32) :
    ¬ Covered (slice :: rest) c p remaining := by
  rintro ⟨hreach, -⟩
  rw [reach, if_neg hz] at hreach
  omega

private theorem covered_last (hc : c ≤ p) (hp : p < c + slice.size.toNat) (hz : c + slice.size.toNat < 2 ^ 32)
    (hremaining : 0 < remaining) (hlast : p + remaining ≤ c + slice.size.toNat) :
    Covered (slice :: rest) c p remaining ↔ p - c < 2 ^ 31 ∧ remaining < 2 ^ 31 := by
  have hrest : ∀ x ∈ located (c + slice.size.toNat) rest, Narrow p (p + remaining) x := by
    intro x hx hlt
    have hge := located_ge hx
    omega
  have hreach : c + slice.size.toNat ≤ reach (c + slice.size.toNat) rest := reach_ge
  rw [Covered, reach, if_pos hz, located, List.forall_mem_cons, and_iff_left hrest, Narrow, max_eq_left hc]
  simp only
  rw [min_eq_left hlast, Nat.add_sub_cancel_left]
  omega

theorem covered_more (hc : c ≤ p) (hp : p < c + slice.size.toNat) (hz : c + slice.size.toNat < 2 ^ 32)
    (hmore : c + slice.size.toNat - p < remaining) :
    Covered (slice :: rest) c p remaining ↔ (p - c < 2 ^ 31 ∧ c + slice.size.toNat - p < 2 ^ 31) ∧
      Covered rest (c + slice.size.toNat) (c + slice.size.toNat) (remaining - (c + slice.size.toNat - p)) := by
  have hstop : c + slice.size.toNat + (remaining - (c + slice.size.toNat - p)) = p + remaining := by omega
  have hrest : (∀ x ∈ located (c + slice.size.toNat) rest, Narrow p (p + remaining) x) ↔
      ∀ x ∈ located (c + slice.size.toNat) rest, Narrow (c + slice.size.toNat) (p + remaining) x := by
    apply forall₂_congr
    intro x hx
    have hge := located_ge hx
    rw [Narrow, Narrow, max_eq_right (by omega), max_eq_right hge]
    -- the range goes on at the start of such a slice, be the slice empty or not
    constructor
    · exact fun h hlt _ => h hlt (by omega)
    · intro h hlt _
      by_cases hempty : x.2.size.toNat = 0
      · rw [hempty]
        omega
      · exact h hlt (by omega)
  rw [Covered, Covered, reach, if_pos hz, located, List.forall_mem_cons, hrest, hstop, Narrow, max_eq_left hc]
  simp only
  constructor
  · rintro ⟨hreach, hnarrow, hrest⟩
    have hn := hnarrow (by omega) hp
    rw [min_eq_right (by omega)] at hn
    exact ⟨hn, hreach, hrest⟩
  · rintro ⟨hnarrow, hreach, hrest⟩
    refine ⟨hreach, fun _ _ => ?_, hrest⟩
    rw [min_eq_right (by omega)]
    exact hnarrow

/-- A slice out of which 2 GiB or more would be copied. -/
theorem covered_huge (hc : c ≤ p) (hp : p < c + slice.size.toNat) (hremaining : 0 < remaining)
    (hhuge : ¬ min (p + remaining) (c + slice.size.toNat) - p < 2 ^ 31) : ¬ Covered (slice :: rest) c p remaining := by
  rintro ⟨-, hnarrow⟩
  have hn := hnarrow (c, slice) List.mem_cons_self (by simp only; omega) hp
  rw [max_eq_left (show (c, slice).1 ≤ p from hc)] at hn
  exact hhuge hn.2

/-- The positions that a copy fills. -/
theorem sources_copied {cbytes : Nat} (bytes : Bytes) (hlen : bytes.length = z) (hc : c ≤ p)
    (hstart : start.toNat = p - c) (hcbytes : cbytes = min (c + z - p) remaining) :
    (cellsAt (c + start.toNat) ((bytes.drop start.toNat).take cbytes)).map Cell.source =
      (List.range' p (min (c + z - p) remaining)).map some := by
  rw [sources_cellsAt, List.length_take, List.length_drop, hlen, hstart, hcbytes, Nat.add_sub_cancel' hc]
  congr 2
  omega

/-- What is copied out of later slices does not begin with this position. -/
theorem sources_later (hlater : p < base) (hremaining : 0 < remaining)
    (h : copySlices throws L input pos cpos remaining base head = .ok v) :
    v.map Cell.source ≠ (List.range' p remaining).map some := by
  intro hsources
  rw [show remaining = remaining - 1 + 1 by omega, List.range'_succ] at hsources
  cases v with
  | nil => cases hsources
  | cons cell v =>
    obtain ⟨q, hq, x, hx, -, hle, -⟩ := copySlices_verified h cell List.mem_cons_self
    rw [List.map_cons, List.map_cons, hq] at hsources
    obtain rfl := Option.some.inj (List.cons.inj hsources).1
    have hge := located_ge hx
    omega

/-- What the loop copies has the positions of the range one after the other if and only if the slices cover the range. -/
theorem sources_iff_covered (hc : c ≤ p) (hp : p < 2 ^ 32) (hremaining : 0 < remaining) (hsize : remaining < 2 ^ 32)
    (h : copySlices throws L input (BitVec.ofNat 32 p) (BitVec.ofNat 32 c) remaining c head = .ok v) :
    v.map Cell.source = (List.range' p remaining).map some ↔ Covered head c p remaining := by
  induction head generalizing p c remaining v with
  | nil =>
    obtain rfl := Except.ok.inj h
    apply iff_of_false
    · rw [show remaining = remaining - 1 + 1 by omega, List.range'_succ]
      simp
    · rintro ⟨hreach, -⟩
      rw [reach] at hreach
      omega
  | cons slice rest ih =>
    obtain ⟨hle, hlt, -, start, cbytes, hstart, hcbytes, hin, more, rfl, hmore⟩ | ⟨hle, hlt, hneg, pos', hrest⟩ |
      ⟨hout, hrest⟩ := copySlices_cases h
    · obtain ⟨hp', hz⟩ := (stops_iff slice hc hp).1 ⟨hle, hlt⟩
      have hpos : ¬ (cbytes : Int) < 0 := by omega
      have hnarrow := (inSlice_iff_narrow hc hp' hz hremaining hsize hstart hcbytes).1 ⟨hpos, hin⟩
      obtain ⟨hstart, hcopied⟩ := copied_eq hc hp' hz hremaining hsize hstart hcbytes hpos hin
      rw [Int.toNat_natCast] at hcopied
      have hsources := sources_copied _ (length_readBytes slice.size.toNat (input.drop c)) hc hstart hcopied
      rw [hcopied] at hmore
      rw [List.map_append, hsources]
      by_cases hlast : remaining ≤ c + slice.size.toNat - p
      · rw [min_eq_right hlast] at hmore ⊢
        obtain ⟨-, rfl⟩ | ⟨hmore, -⟩ := hmore
        · rw [covered_last hc hp' hz hremaining (by omega)]
          exact iff_of_true (List.append_nil _) ⟨hnarrow.1, by omega⟩
        · omega
      · rw [min_eq_left (by omega)] at hmore ⊢
        obtain ⟨hdone, -⟩ | ⟨-, hmore⟩ := hmore
        · omega
        · rw [ofNat_add_size, ofNat_pos_add, Nat.add_sub_cancel' hp'.le] at hmore
          have hih := ih le_rfl hz (by omega) (by omega) hmore
          have hsplit : List.range' p remaining = List.range' p (c + slice.size.toNat - p) ++
              List.range' (c + slice.size.toNat) (remaining - (c + slice.size.toNat - p)) := by
            rw [← Nat.add_sub_cancel' hp'.le, Nat.add_sub_cancel_left, List.range'_append_1,
              Nat.add_sub_cancel' (by omega)]
          rw [covered_more hc hp' hz (by omega), and_iff_right (by omega), hsplit, List.map_append,
            List.append_cancel_left_eq]
          exact hih
    · -- 2 GiB and more: the stream has written nothing
      obtain ⟨hp', hz⟩ := (stops_iff slice hc hp).1 ⟨hle, hlt⟩
      refine iff_of_false (sources_later hp' hremaining hrest) (covered_huge hc hp' hremaining fun hsmall => ?_)
      have hstart := startOf_eq hc hp
      rw [cbytesOf_eq hc hp' (by omega) hsize (by rw [hstart]; split_ifs <;> simp), if_pos (by omega)] at hneg
      omega
    · rw [stops_iff slice hc hp, not_and_or] at hout
      obtain ⟨hzero, -⟩ | ⟨-, hrest⟩ := hrest
      · omega
      rw [ofNat_add_size] at hrest
      by_cases hz : c + slice.size.toNat < 2 ^ 32
      · have hskip : c + slice.size.toNat ≤ p := by omega
        rw [covered_skip hskip hz]
        exact ih hskip hp hremaining hsize hrest
      · -- behind the wrap every byte that is copied has a position from 4 GiB on
        exact iff_of_false (sources_later (by omega) hremaining hrest) (covered_wrap hc hremaining hz)

/-- A range that the slices cover is never copied from outside of a slice. -/
theorem copySlices_inside (hc : c ≤ p) (hp : p < 2 ^ 32) (hremaining : 0 < remaining) (hsize : remaining < 2 ^ 32)
    (h : Covered head c p remaining) :
    copySlices throws L input (BitVec.ofNat 32 p) (BitVec.ofNat 32 c) remaining c head ≠ .error .outside := by
  induction head generalizing p c remaining with
  | nil => exact nofun
  | cons slice rest ih =>
    rw [copySlices]
    simp only [length_readBytes]
    by_cases hstop : BitVec.ofNat 32 c ≤ BitVec.ofNat 32 p ∧ BitVec.ofNat 32 p < BitVec.ofNat 32 c + slice.size
    · obtain ⟨hp', hz⟩ := (stops_iff slice hc hp).1 hstop
      have hnarrow : p - c < 2 ^ 31 ∧ min (p + remaining) (c + slice.size.toNat) - p < 2 ^ 31 := by
        by_cases hlast : p + remaining ≤ c + slice.size.toNat
        · have hlastNarrow := (covered_last hc hp' hz hremaining hlast).1 h
          omega
        · have hmoreNarrow := ((covered_more hc hp' hz (by omega)).1 h).1
          omega
      generalize hstart : startOf (BitVec.ofNat 32 p) (BitVec.ofNat 32 c) = start
      generalize hcbytes : cbytesOf slice.size.toNat start remaining = cbytes
      obtain ⟨hpos, hin⟩ := (inSlice_iff_narrow hc hp' hz hremaining hsize hstart hcbytes).2 hnarrow
      rw [if_pos hstop, if_neg hpos, if_pos hin, (copied_eq hc hp' hz hremaining hsize hstart hcbytes hpos hin).2]
      split_ifs with hmatch hdone
      · exact nofun
      · rw [min_eq_left (by omega), ofNat_add_size, ofNat_pos_add, Nat.add_sub_cancel' hp'.le]
        exact more_error.not.2 (ih le_rfl hz (by omega) (by omega) ((covered_more hc hp' hz (by omega)).1 h).2)
      · exact nofun
    · rw [if_neg hstop, if_neg hremaining.ne', ofNat_add_size]
      rw [stops_iff slice hc hp, not_and_or] at hstop
      have hz : c + slice.size.toNat < 2 ^ 32 := not_not.1 fun hz => covered_wrap hc hremaining hz h
      have hskip : c + slice.size.toNat ≤ p := by omega
      exact ih hskip hp hremaining hsize ((covered_skip hskip hz).1 h)

/-! ### The result -/

/-- The zeros behind what was written are the verified bytes of the range only where there are none. -/
theorem verified_iff_sources (h : copySlices throws L input pos cpos remaining 0 head = .ok v) :
    (∀ i, ∀ c ∈ (v ++ List.replicate (remaining - v.length) ⟨0, none⟩)[i]?,
        c.source = some (p + i) ∧ VerifiedByte L head input (p + i) c.byte) ↔
      v.map Cell.source = (List.range' p remaining).map some := by
  have hlen := length_copySlices h
  constructor
  · intro hverified
    have hfull : remaining ≤ v.length := by
      by_contra hlt
      have hpad := hverified v.length ⟨0, none⟩
      rw [List.getElem?_append_right le_rfl, List.getElem?_replicate, if_pos (by omega)] at hpad
      cases (hpad rfl).1
    rw [Nat.sub_eq_zero_of_le hfull, List.replicate_zero, List.append_nil] at hverified
    apply List.ext_getElem?
    intro i
    rw [List.getElem?_map, List.getElem?_map]
    by_cases hi : i < v.length
    · rw [List.getElem?_eq_getElem hi, List.getElem?_range' (by omega), Option.map_some, Option.map_some,
        (hverified i _ (List.getElem?_eq_getElem hi)).1, Nat.one_mul]
    · rw [List.getElem?_eq_none (by omega), List.getElem?_eq_none (by rw [List.length_range']; omega)]
      rfl
  · intro hsources i c hc
    have hfull := congrArg List.length hsources
    rw [List.length_map, List.length_map, List.length_range'] at hfull
    rw [hfull, Nat.sub_self, List.replicate_zero, List.append_nil] at hc
    obtain ⟨hi, -⟩ := List.getElem?_eq_some_iff.1 hc
    have hsource := congrArg (·[i]?) hsources
    simp only [List.getElem?_map] at hsource
    rw [show v[i]? = some c from hc, List.getElem?_range' (by omega), Option.map_some, Option.map_some,
      Nat.one_mul] at hsource
    have hsource := Option.some.inj hsource
    refine ⟨hsource, ?_⟩
    obtain ⟨q, hq, hbyte⟩ := copySlices_verified h c (List.mem_of_getElem? hc)
    obtain rfl := Option.some.inj (hsource.symm.trans hq)
    exact hbyte

/-- Where the file has a header, it is the loop that decides. -/
theorem refusable_of {file : Bytes} {s : BitVec 32} (hfile : disk.files id = some file)
    (hunpack : L.chunkHeaders.unpack file = some (head, input)) :
    Refusable throws L disk id pos s ↔ copySlices throws L input pos 0 (sizeOf head s).toNat 0 head = .error .thrown ∨
      (sizeOf head s).toNat = 0 ∨ Covered head 0 pos.toNat (sizeOf head s).toNat := by
  simp [Refusable, hfile, hunpack, copySlices_thrown]

private theorem verified_of {file : Bytes} {s : BitVec 32} (hfile : disk.files id = some file)
    (hunpack : L.chunkHeaders.unpack file = some (head, input)) (hlen : v.length = (sizeOf head s).toNat) :
    Verified L disk id pos s (.ok v) ↔
      ∀ i, ∀ c ∈ v[i]?, c.source = some (pos.toNat + i) ∧ VerifiedByte L head input (pos.toNat + i) c.byte := by
  simp [Verified, hfile, hunpack, hlen]

/-- For a chunk file with any content and for any range, `get_chunk` throws or returns the bytes of the range, each out of
a slice that matches its hash, if and only if there is no such chunk, a slice that it reads does not match (or has 2 GiB and
more of the range, where the stream throws at so large a write), the range is empty, or the slices cover it. -/
theorem verified_iff_refusable (throws : Bool) (L : Lib) (disk : Disk) (id : Sha1) (pos s : BitVec 32) :
    Verified L disk id pos s (readChunk throws L disk id pos s) ↔ Refusable throws L disk id pos s := by
  rw [readChunk]
  split
  · -- there is no file
    rename_i hfile
    exact iff_of_true trivial (by simp [Refusable, hfile])
  rename_i file hfile
  split
  · -- it has no header
    rename_i hunpack
    exact iff_of_true trivial (by simp [Refusable, hfile, hunpack])
  rename_i head input hunpack
  rw [refusable_of hfile hunpack]
  simp only
  have hpos : pos = BitVec.ofNat 32 pos.toNat := by rw [BitVec.ofNat_toNat, BitVec.setWidth_eq]
  cases hcopy : copySlices throws L input pos 0 (sizeOf head s).toNat 0 head with
  | error fault =>
    cases fault with
    | thrown => exact iff_of_true trivial (.inl rfl)
    | outside =>
      apply iff_of_false not_false
      rintro (h | hzero | hcovered)
      · cases h
      · rw [hzero] at hcopy
        exact copySlices_zero hcopy
      · by_cases hzero : (sizeOf head s).toNat = 0
        · rw [hzero] at hcopy
          exact copySlices_zero hcopy
        · rw [hpos] at hcopy
          exact copySlices_inside (Nat.zero_le _) pos.isLt (Nat.pos_of_ne_zero hzero) (sizeOf head s).isLt hcovered hcopy
  | ok v =>
    have hlen := length_copySlices hcopy
    change Verified L disk id pos s (.ok (v ++ List.replicate ((sizeOf head s).toNat - v.length) ⟨0, none⟩)) ↔ _
    rw [verified_of hfile hunpack (by rw [List.length_append, List.length_replicate]; omega),
      verified_iff_sources hcopy, or_iff_right nofun]
    by_cases hzero : (sizeOf head s).toNat = 0
    · rw [hzero] at hlen ⊢
      rw [List.length_eq_zero_iff.1 (Nat.le_zero.1 hlen)]
      exact iff_of_true rfl (.inl rfl)
    · rw [or_iff_right hzero]
      rw [hpos] at hcopy
      exact sources_iff_covered (Nat.zero_le _) pos.isLt (Nat.pos_of_ne_zero hzero) (sizeOf head s).isLt hcopy

/-! ### The chunks that are stored -/

private theorem map_byte_cellsAt (source : Nat) (bytes : Bytes) : (cellsAt source bytes).map Cell.byte = bytes := by
  induction bytes generalizing source with
  | nil => rfl
  | cons b rest ih => rw [cellsAt, List.map_cons, ih]

/-- In a slice below 2 GiB the conversions to `int` change nothing. -/
theorem small_turn (remaining : Nat) (hstop : cpos ≤ pos ∧ pos < cpos + slice.size) (hz : slice.size.toNat < 2 ^ 31) :
    startOf pos cpos = (pos - cpos).toNat ∧ InSlice slice.size.toNat (startOf pos cpos)
        (min (slice.size.toNat - (pos - cpos).toNat) remaining) ∧
      cbytesOf slice.size.toNat (startOf pos cpos) remaining =
        (min (slice.size.toNat - (pos - cpos).toNat) remaining : Nat) := by
  obtain ⟨hle, hlt⟩ := hstop
  rw [BitVec.le_def] at hle
  rw [BitVec.lt_def, BitVec.toNat_add] at hlt
  have hpos := pos.isLt
  have hd : (pos - cpos).toNat = pos.toNat - cpos.toNat := BitVec.toNat_sub_of_le hle
  have hstart : startOf pos cpos = (pos - cpos).toNat := by
    rw [startOf, BitVec.toInt_eq_toNat_cond, if_pos (by omega)]
  have hleft : (BitVec.ofInt 32 (slice.size.toNat - ((pos - cpos).toNat : Int))).toInt =
      slice.size.toNat - (pos - cpos).toNat := by
    rw [BitVec.toInt_ofInt, Int.bmod_def]
    split_ifs <;> omega
  have hsize : (BitVec.ofInt 64 (slice.size.toNat - ((pos - cpos).toNat : Int))).toNat =
      slice.size.toNat - (pos - cpos).toNat := by
    rw [BitVec.toNat_ofInt]
    omega
  have hcbytes : cbytesOf slice.size.toNat (pos - cpos).toNat remaining =
      (min (slice.size.toNat - (pos - cpos).toNat) remaining : Nat) := by
    rw [cbytesOf, hleft, hsize, BitVec.toInt_eq_toNat_cond, BitVec.toNat_ofNat, Nat.mod_eq_of_lt (by omega),
      if_pos (by omega)]
  rw [hstart, hcbytes]
  exact ⟨rfl, .inr (by omega), rfl⟩

/-- Where every slice is below 2 GiB, as those of `slice_chunk` are, what is copied are the bytes that `read_slices` has. -/
theorem readSlices_eq_copySlices (hsmall : ∀ slice ∈ head, slice.size.toNat < 2 ^ 31) :
    readSlices L pos cpos remaining head (input.drop base) =
      (copySlices throws L input pos cpos remaining base head).toOption.map (·.map Cell.byte) := by
  induction head generalizing pos cpos remaining base with
  | nil => rfl
  | cons slice rest ih =>
    obtain ⟨hz, hrest⟩ := List.forall_mem_cons.1 hsmall
    rw [readSlices, copySlices, List.drop_drop]
    simp only [length_readBytes]
    by_cases hstop : cpos ≤ pos ∧ pos < cpos + slice.size
    · obtain ⟨hstart, hin, hcbytes⟩ := small_turn remaining hstop hz
      rw [if_pos hstop, if_pos hstop, hcbytes, if_neg (Int.not_lt.2 (Int.natCast_nonneg _)), Int.toNat_natCast,
        if_pos hin, hstart, Int.toNat_natCast]
      by_cases hmatch : L.sha1 (readBytes slice.size.toNat (input.drop base)) = slice.hash
      · rw [if_pos hmatch, if_pos (show Matches L input (base, slice) from hmatch)]
        split_ifs with hdone
        · exact congrArg some (map_byte_cellsAt _ _).symm
        · rw [ih hrest]
          cases copySlices throws L input (pos + BitVec.ofNat 32 (min (slice.size.toNat - (pos - cpos).toNat) remaining))
              (cpos + slice.size) (remaining - min (slice.size.toNat - (pos - cpos).toNat) remaining)
              (base + slice.size.toNat) rest with
          | error f => rfl
          | ok more =>
            apply congrArg some
            simp only [List.map_append, map_byte_cellsAt]
      · rw [if_neg hmatch, if_neg (show ¬ Matches L input (base, slice) from hmatch)]
        rfl
    · rw [if_neg hstop, if_neg hstop]
      split_ifs
      · rfl
      · exact ih hrest

/-- There `get_chunk` has the result that the read back of a chunk is stated with. -/
theorem getChunk_eq_readChunk {s : BitVec 32}
    (hsmall : ∀ file ∈ disk.files id, ∀ x ∈ L.chunkHeaders.unpack file, ∀ slice ∈ x.1, slice.size.toNat < 2 ^ 31) :
    getChunk L disk id pos s = (readChunk throws L disk id pos s).toOption.map (·.map Cell.byte) := by
  rw [getChunk, readChunk]
  cases hfile : disk.files id with
  | none => rfl
  | some file =>
    rw [Option.bind_eq_bind, Option.bind_some]
    cases hunpack : L.chunkHeaders.unpack file with
    | none => simp only [hunpack]; rfl
    | some x =>
      obtain ⟨head, input⟩ := x
      have hread : readSlices L pos 0 (sizeOf head s).toNat head (input.drop 0) =
          (copySlices throws L input pos 0 (sizeOf head s).toNat 0 head).toOption.map (·.map Cell.byte) :=
        readSlices_eq_copySlices (hsmall file hfile _ hunpack)
      rw [List.drop_zero] at hread
      simp only [hunpack, Option.bind_eq_bind, Option.bind_some]
      rw [← sizeOf, hread]
      cases copySlices throws L input pos 0 (sizeOf head s).toNat 0 head with
      | error f => rfl
      | ok v =>
        apply congrArg some
        simp only [List.map_append, List.map_replicate, List.length_map]

/-- `smallStored.1` with the range of 4 bytes from 5 on: the chunk has 7. -/
theorem read_behind (throws : Bool) : readChunk throws smallLib smallStored.2 smallStored.1 5 4 =
    .ok [⟨79, some 5⟩, ⟨240, some 6⟩, ⟨0, none⟩, ⟨0, none⟩] := by
  cases throws <;> decide +kernel

/-- Asked for bytes behind its slices, `get_chunk` of a chunk that is stored as it should be returns zeros. -/
theorem behind_slices : ¬ ∃ throws : Bool, ∀ (L : Lib) (disk : Disk) (id : Sha1) (pos s : BitVec 32),
    Verified L disk id pos s (readChunk throws L disk id pos s) := by
  rintro ⟨throws, h⟩
  have hv := h smallLib smallStored.2 smallStored.1 5 4
  rw [read_behind] at hv
  obtain ⟨file, -, x, -, -, hcells⟩ := hv
  cases (hcells 2 ⟨0, none⟩ rfl).1

end Tornet.Cafs
