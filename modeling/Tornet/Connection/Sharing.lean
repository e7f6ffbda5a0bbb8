import Mathlib.Logic.Function.Basic
import Tornet.Connection.Buffers
import Tornet.Library.Runs

/-! `tn::buffer` objects that share their storage: each has a pointer and a length of its own beside it. -/
namespace Tornet.Connection.Sharing
open Library Runs

/-- `buffer_data`. -/
structure Storage where
  bytes : Bytes
  full : bytes.length = 2048

/-- `boost::make_shared<buffer_data>()`, and `memcpy` to the start of it. -/
def Storage.ofBytes (d : Bytes) (h : d.length ≤ 2048) : Storage where
  bytes := d ++ List.replicate (2048 - d.length) 0
  full := by rw [List.length_append, List.length_replicate, Nat.add_sub_cancel' h]

/-- A `buffer`: `start` points to the byte `offset` of the storage `block`. -/
structure Handle where
  block : Nat
  offset : Int
  len : BitVec 32
  sharedData : Nat
  deriving DecidableEq, Repr

/-- The storages in the order in which they were made, and the buffers. -/
structure State where
  storages : Nat → Storage := fun _ => .ofBytes [] (Nat.zero_le _)
  made : Nat := 0
  buffers : List Handle := []

/-- The constructors, assignments and other operations, with the indices of the buffers. `left` is what the memory of
`len` held before the constructor from a length, which assigns its parameter to itself. -/
inductive Event where
  | default
  | fromString (d : Bytes)
  | fromLength (n left : BitVec 32)
  | fromBytes (d : Bytes)
  | copy (b : Nat)
  | assign (a b : Nat)
  | moveAssign (a b : Nat)
  | subbuf (b : Nat) (s l : BitVec 32)
  | moveStart (b : Nat) (sdif : BitVec 32)
  | resize (b : Nat) (n : BitVec 32)
  deriving DecidableEq, Repr

/-- The range of bytes that the pointer and the length of a buffer stand for. -/
def State.view (s : State) (v : Handle) : Buffer :=
  { storage := (s.storages v.block).bytes, full := (s.storages v.block).full, start := v.offset, len := v.len }

/-- A storage of its own, with the data at the start. -/
def State.make (s : State) (d : Bytes) (h : d.length ≤ 2048) (len : BitVec 32) : State where
  storages := Function.update s.storages s.made (.ofBytes d h)
  made := s.made + 1
  buffers := s.buffers ++ [⟨s.made, 0, len, s.made⟩]

/-- What `subbuf` makes of a copy. -/
def Handle.sub (v : Handle) (s l : BitVec 32) : Handle :=
  { v with offset := v.offset + s.toInt, len := if l = -1 then v.len - s else l }

/-- `move_start` before its assertions. -/
def Handle.moved (v : Handle) (sdif : BitVec 32) : Handle :=
  { v with offset := v.offset + sdif.toInt, len := if sdif.toInt > v.len.toInt then 0 else v.len - sdif }

/-- One operation; `none` where an assertion fails or there is no such buffer. The assertions compare addresses, and
`place` is the address of a storage. -/
def step (place : Nat → Int) (s : State) : Event → Option State
  | .default => some (s.make [] (Nat.zero_le _) 2048)
  | .fromString d => if h : d.length ≤ 2048 then some (s.make d h (BitVec.ofNat 32 d.length)) else none
  | .fromLength n left => if n.toNat ≤ 2048 then some (s.make [] (Nat.zero_le _) left) else none
  | .fromBytes d => if h : d.length ≤ 2048 then some (s.make d h (BitVec.ofNat 32 d.length)) else none
  | .copy b => do
    let v ← s.buffers[b]?
    some { s with buffers := s.buffers ++ [v] }
  | .assign a b => do
    let x ← s.buffers[a]?
    let y ← s.buffers[b]?
    some { s with buffers := s.buffers.set a { x with sharedData := y.sharedData } }
  | .moveAssign a b => do
    let x ← s.buffers[a]?
    let y ← s.buffers[b]?
    some { s with
      buffers := (s.buffers.set a { x with sharedData := y.sharedData }).set b { y with sharedData := x.sharedData } }
  | .subbuf b p l => do
    let v ← s.buffers[b]?
    let w := v.sub p l
    if place w.sharedData ≤ place w.block + w.offset ∧
        place w.block + w.offset + w.len.toNat ≤ place w.sharedData + 2048 then
      some { s with buffers := s.buffers ++ [w] }
    else none
  | .moveStart b sdif => do
    let v ← s.buffers[b]?
    let w := v.moved sdif
    if place w.sharedData ≤ place w.block + w.offset ∧ place w.block + w.offset ≤ place w.sharedData + 2048 then
      some { s with buffers := s.buffers.set b w }
    else none
  | .resize b n => do
    let v ← s.buffers[b]?
    -- a length that is too large throws, and nothing has changed
    if n ≤ v.len then some { s with buffers := s.buffers.set b { v with len := n } } else some s

/-- The view of a buffer lies inside the storage the buffer holds. -/
structure Handle.Within (v : Handle) : Prop where
  own : v.block = v.sharedData
  start : 0 ≤ v.offset
  stop : v.offset + v.len.toNat ≤ 2048

/-- All views lie inside their storages; and after an assignment the target denotes the bytes that the source did. -/
def Represents (s : State) (e : Event) (t : State) : Prop :=
  (∀ v ∈ t.buffers, v.Within) ∧
    match e with
    | .assign a b | .moveAssign a b =>
      ∀ x ∈ t.buffers[a]?, ∀ y ∈ s.buffers[b]?, (t.view x).bytes = (s.view y).bytes
    | _ => True

/-- The constructor from a length finds one that happens to fit; and a buffer is only assigned to one that shares its
storage and denotes the same bytes already. -/
def Lucky (s : State) : Event → Prop
  | .fromLength _ left => left.toNat ≤ 2048
  | .assign a b | .moveAssign a b =>
    ∀ x ∈ s.buffers[a]?, ∀ y ∈ s.buffers[b]?, x.sharedData = y.sharedData ∧ (s.view x).bytes = (s.view y).bytes
  | _ => True

instance (s : State) : DecidablePred (Lucky s)
  | .fromLength _ left => inferInstanceAs (Decidable (left.toNat ≤ 2048))
  | .assign a b => inferInstanceAs (Decidable (∀ x ∈ s.buffers[a]?, ∀ y ∈ s.buffers[b]?, _ ∧ _))
  | .moveAssign a b => inferInstanceAs (Decidable (∀ x ∈ s.buffers[a]?, ∀ y ∈ s.buffers[b]?, _ ∧ _))
  | .default | .fromString _ | .fromBytes _ | .copy _ | .subbuf _ _ _ | .moveStart _ _ | .resize _ _ => isTrue trivial

/-! ### Single views -/

section
variable {v w : Handle}

/-- The view of a sub-buffer is the one that `Buffer` computes. -/
theorem view_sub (s : State) (v : Handle) (p l : BitVec 32) : s.view (v.sub p l) = (s.view v).view p.toInt l := by
  simp only [State.view, Handle.sub, Buffer.view, BitVec.ofInt_toInt]

/-- Where the storage is the one that is pointed into, the address of it does not matter. -/
theorem Handle.Within.sub (h : v.Within) {place : Nat → Int} {p l : BitVec 32}
    (hlow : place (v.sub p l).sharedData ≤ place (v.sub p l).block + (v.sub p l).offset)
    (hhigh : place (v.sub p l).block + (v.sub p l).offset + (v.sub p l).len.toNat ≤ place (v.sub p l).sharedData + 2048) :
    (v.sub p l).Within := by
  have hown : (v.sub p l).block = (v.sub p l).sharedData := h.own
  rw [hown] at hlow hhigh
  exact ⟨hown, by omega, by omega⟩

/-- The end of the view stays where it is, unless the start is moved behind it. -/
theorem Handle.Within.moved (h : v.Within) {place : Nat → Int} {sdif : BitVec 32}
    (hlow : place (v.moved sdif).sharedData ≤ place (v.moved sdif).block + (v.moved sdif).offset)
    (hhigh : place (v.moved sdif).block + (v.moved sdif).offset ≤ place (v.moved sdif).sharedData + 2048) :
    (v.moved sdif).Within := by
  have hown : (v.moved sdif).block = (v.moved sdif).sharedData := h.own
  rw [hown] at hlow hhigh
  refine ⟨hown, by omega, ?_⟩
  have hoffset : (v.moved sdif).offset = v.offset + sdif.toInt := rfl
  by_cases hpast : sdif.toInt > v.len.toInt
  · have hlen : (v.moved sdif).len = 0 := if_pos hpast
    rw [hlen, show BitVec.toNat (0 : BitVec 32) = 0 from rfl]
    omega
  · have hlen : (v.moved sdif).len = v.len - sdif := if_neg hpast
    have hstart := h.start
    have hstop := h.stop
    have hleft : v.len.toInt = v.len.toNat := BitVec.toInt_eq_toNat_of_lt (by omega)
    have hstep := BitVec.toInt_eq_toNat_cond sdif
    rw [hlen, hoffset, BitVec.toNat_sub]
    split_ifs at hstep <;> omega

theorem Handle.Within.resized (h : v.Within) {n : BitVec 32} (hn : n ≤ v.len) : Handle.Within { v with len := n } := by
  have hstop := h.stop
  have hle : n.toNat ≤ v.len.toNat := hn
  exact ⟨h.own, h.start, by dsimp only; omega⟩

/-- A view with another storage is inside it exactly if it is the same storage. -/
theorem Handle.Within.assign_iff (h : v.Within) (shared : Nat) :
    Handle.Within { v with sharedData := shared } ↔ v.sharedData = shared :=
  ⟨fun h' => h.own.symm.trans h'.own, fun hs => ⟨h.own.trans hs, h.start, h.stop⟩⟩

end

/-! ### Steps -/

section
variable {s t : State} {place : Nat → Int} {v : Handle}

theorem within_append (h : ∀ v ∈ s.buffers, v.Within) (hv : v.Within) : ∀ w ∈ s.buffers ++ [v], w.Within := by
  intro w hw
  rcases List.mem_append.mp hw with hw | hw
  · exact h w hw
  · exact List.mem_singleton.mp hw ▸ hv

theorem within_set {l : List Handle} (h : ∀ v ∈ l, v.Within) (hv : v.Within) (i : Nat) :
    ∀ w ∈ l.set i v, w.Within := by
  intro w hw
  rcases List.mem_or_eq_of_mem_set hw with hw | rfl
  · exact h w hw
  · exact hv

theorem within_make (h : ∀ v ∈ s.buffers, v.Within) (d : Bytes) (hd : d.length ≤ 2048) {len : BitVec 32}
    (hlen : len.toNat ≤ 2048) : ∀ v ∈ (s.make d hd len).buffers, v.Within :=
  within_append h ⟨rfl, le_rfl, by dsimp only; omega⟩

/-- A string or some bytes, with their length. -/
theorem within_fill {d : Bytes} (h : ∀ v ∈ s.buffers, v.Within)
    (ht : (if hd : d.length ≤ 2048 then some (s.make d hd (BitVec.ofNat 32 d.length)) else none) = some t) :
    ∀ v ∈ t.buffers, v.Within := by
  split_ifs at ht with hd
  obtain rfl := Option.some.inj ht
  refine within_make h d hd ?_
  rw [BitVec.toNat_ofNat]
  exact (Nat.mod_le _ _).trans hd

theorem mem_of_get {i : Nat} (h : s.buffers[i]? = some v) : v ∈ s.buffers := List.mem_of_getElem? h

theorem get_set {i : Nat} {x : Handle} (h : s.buffers[i]? = some x) (v : Handle) : (s.buffers.set i v)[i]? = some v :=
  List.getElem?_set_self (List.getElem?_eq_some_iff.mp h).1

/-- The target of either assignment: its pointer and length are those it had. -/
theorem assigned {a b : Nat} {e : Event} (he : e = .assign a b ∨ e = .moveAssign a b) (ht : step place s e = some t) :
    ∃ x y, s.buffers[a]? = some x ∧ s.buffers[b]? = some y ∧ t.storages = s.storages ∧
      t.buffers[a]? = some { x with sharedData := y.sharedData } := by
  rcases he with rfl | rfl
  · obtain ⟨x, hx, hrest⟩ := Option.bind_eq_some_iff.mp ht
    obtain ⟨y, hy, hlast⟩ := Option.bind_eq_some_iff.mp hrest
    obtain rfl := Option.some.inj hlast
    exact ⟨x, y, hx, hy, rfl, get_set hx _⟩
  · obtain ⟨x, hx, hrest⟩ := Option.bind_eq_some_iff.mp ht
    obtain ⟨y, hy, hlast⟩ := Option.bind_eq_some_iff.mp hrest
    obtain rfl := Option.some.inj hlast
    refine ⟨x, y, hx, hy, rfl, ?_⟩
    by_cases hab : b = a
    · -- the swap of a buffer with itself
      subst hab
      obtain rfl : x = y := Option.some.inj (hx.symm.trans hy)
      apply List.getElem?_set_self
      rw [List.length_set]
      exact (List.getElem?_eq_some_iff.mp hx).1
    · exact (List.getElem?_set_ne hab).trans (get_set hx _)

/-- An assignment represents exactly if it is lucky. -/
theorem assign_iff {a b : Nat} {e : Event} (he : e = .assign a b ∨ e = .moveAssign a b) (h : ∀ v ∈ s.buffers, v.Within)
    (ht : step place s e = some t) : Represents s e t ↔ Lucky s e := by
  obtain ⟨x, y, hx, hy, hstorages, ha⟩ := assigned he ht
  have hview : t.view { x with sharedData := y.sharedData } = s.view x := by
    simp only [State.view, hstorages]
  have hxin := h x (mem_of_get hx)
  have hyin := h y (mem_of_get hy)
  have hlucky : Lucky s e ↔ x.sharedData = y.sharedData ∧ (s.view x).bytes = (s.view y).bytes := by
    rcases he with rfl | rfl <;> simp [Lucky, hx, hy]
  have hsame : Represents s e t ↔ (∀ v ∈ t.buffers, v.Within) ∧ (s.view x).bytes = (s.view y).bytes := by
    rcases he with rfl | rfl <;> simp [Represents, ha, hy, hview]
  rw [hlucky, hsame, and_congr_left_iff]
  intro _
  constructor
  · intro hall
    exact (hxin.assign_iff _).mp (hall _ (List.mem_of_getElem? ha))
  · intro hshared
    have hxset := (hxin.assign_iff y.sharedData).mpr hshared
    have hyset := (hyin.assign_iff x.sharedData).mpr hshared.symm
    rcases he with rfl | rfl
    · simp only [step, hx, hy, Option.bind_eq_bind, Option.bind_some] at ht
      obtain rfl := Option.some.inj ht
      exact within_set h hxset a
    · simp only [step, hx, hy, Option.bind_eq_bind, Option.bind_some] at ht
      obtain rfl := Option.some.inj ht
      exact within_set (within_set h hxset a) hyset b

/-- Every operation but an assignment and the constructor from a length keeps the views inside. -/
theorem represents_iff {e : Event} (h : ∀ v ∈ s.buffers, v.Within) (ht : step place s e = some t) :
    Represents s e t ↔ Lucky s e := by
  cases e with
  | default =>
    obtain rfl := Option.some.inj ht
    exact iff_of_true ⟨within_make h [] _ le_rfl, trivial⟩ trivial
  | fromString d => exact iff_of_true ⟨within_fill h ht, trivial⟩ trivial
  | fromBytes d => exact iff_of_true ⟨within_fill h ht, trivial⟩ trivial
  | fromLength n left =>
    simp only [step] at ht
    split_ifs at ht
    obtain rfl := Option.some.inj ht
    constructor
    · intro hrep
      have hnew := (hrep.1 _ (List.mem_append_right _ List.mem_cons_self)).stop
      dsimp only at hnew
      show left.toNat ≤ 2048
      omega
    · exact fun hleft => ⟨within_make h [] _ hleft, trivial⟩
  | copy b =>
    obtain ⟨v, hv, hlast⟩ := Option.bind_eq_some_iff.mp ht
    obtain rfl := Option.some.inj hlast
    exact iff_of_true ⟨within_append h (h v (mem_of_get hv)), trivial⟩ trivial
  | assign a b => exact assign_iff (.inl rfl) h ht
  | moveAssign a b => exact assign_iff (.inr rfl) h ht
  | subbuf b p l =>
    obtain ⟨v, hv, hlast⟩ := Option.bind_eq_some_iff.mp ht
    dsimp only at hlast
    split_ifs at hlast with hassert
    obtain rfl := Option.some.inj hlast
    exact iff_of_true ⟨within_append h ((h v (mem_of_get hv)).sub hassert.1 hassert.2), trivial⟩ trivial
  | moveStart b sdif =>
    obtain ⟨v, hv, hlast⟩ := Option.bind_eq_some_iff.mp ht
    dsimp only at hlast
    split_ifs at hlast with hassert
    obtain rfl := Option.some.inj hlast
    exact iff_of_true ⟨within_set h ((h v (mem_of_get hv)).moved hassert.1 hassert.2) b, trivial⟩ trivial
  | resize b n =>
    obtain ⟨v, hv, hlast⟩ := Option.bind_eq_some_iff.mp ht
    split_ifs at hlast with hn
    · obtain rfl := Option.some.inj hlast
      exact iff_of_true ⟨within_set h ((h v (mem_of_get hv)).resized hn) b, trivial⟩ trivial
    · obtain rfl := Option.some.inj hlast
      exact iff_of_true ⟨h, trivial⟩ trivial

end

/-- In every run of operations whose assertions pass: all buffers are well represented after each of them, and each
assignment gives its target the bytes of its source, if and only if every operation is lucky. -/
theorem represented_iff_lucky (place : Nat → Int) (es : List Event) (u : State) (hr : run (step place) {} es = some u) :
    Always (step place) Represents {} es ↔ Guarded (step place) Lucky {} es := by
  apply always_iff_guarded (fun s : State => ∀ v ∈ s.buffers, v.Within)
  · intro s e t h hlucky ht
    have hrep := (represents_iff h ht).mpr hlucky
    exact ⟨hrep, hrep.1⟩
  · exact fun s e t h hrep ht => (represents_iff h ht).mp hrep
  · exact fun v hv => by cases hv
  · exact hr

/-- A datagram, its payload behind four bytes, and a copy of the payload, to which the payload is assigned. -/
def payload : List Event :=
  [.fromBytes [1, 2, 3, 4, 5, 6, 7, 8], .subbuf 0 4 (-1), .copy 1, .moveStart 2 2, .moveStart 2 (-2), .assign 2 1,
    .resize 1 3]

theorem represented_iff_lucky_payload :
    (∃ u, run (step fun _ => 0) {} payload = some u) ∧ Always (step fun _ => 0) Represents {} payload := by
  have hrun : ∃ u, u ∈ run (step fun _ => 0) {} payload ∧ u.buffers.length = 3 := by decide +kernel
  obtain ⟨u, hu, -⟩ := hrun
  exact ⟨⟨u, hu⟩, (represented_iff_lucky (fun _ => 0) payload u hu).mpr (by decide +kernel)⟩

/-- A buffer is assigned: the target holds the storage of the source, and points into its own. The constructor from a
length leaves a length of 2049 bytes. -/
theorem assigned_stale :
    (¬ ∀ (place : Nat → Int) (es : List Event) (u : State), run (step place) {} es = some u →
      Always (step place) Represents {} es) ∧
    ¬ Represents {} (.fromLength 8 2049) (State.make {} [] (Nat.zero_le _) 2049) := by
  constructor
  · intro h
    have hrun : ∃ u, u ∈ run (step fun _ => 0) {} [.default, .default, .assign 0 1] ∧ u.buffers.length = 2 := by
      decide +kernel
    obtain ⟨u, hu, -⟩ := hrun
    have hall := h (fun _ => 0) _ u hu
    obtain ⟨-, hrest⟩ := hall _ rfl
    obtain ⟨-, hrest⟩ := hrest _ rfl
    obtain ⟨hlast, -⟩ := hrest _ rfl
    have hown := (hlast.1 ⟨0, 0, 2048, 1⟩ (by decide)).own
    exact absurd hown (by decide)
  · intro hrep
    have hstop := (hrep.1 ⟨0, 0, 2049, 0⟩ (List.mem_singleton.mpr rfl)).stop
    exact absurd hstop (by decide)

end Tornet.Connection.Sharing
