import Mathlib.Data.List.AList
import Tornet.Library.Runs

/-! The channels of one connection: channel objects that share an `impl`, and the map `_channels` that the connection keeps. -/
namespace Tornet.Connection.Channels
open Library Runs

/-- `channel::impl` without its receive handler. `con` is whether it still holds its connection; `listed` is a history
variable: the channel was put into `_channels`. -/
structure Impl where
  rport : BitVec 16
  lport : BitVec 16
  con : Bool := true
  closed : Bool := false
  listed : Bool := false
  deriving DecidableEq, Repr

/-- `(uint32_t(local) << 16) | remote`. -/
def keyOf (lport rport : BitVec 16) : BitVec 32 := lport ++ rport

def Impl.key (i : Impl) : BitVec 32 := keyOf i.lport i.rport

/-- The `impl` objects by address, the `channel` objects, which are pointers to them, and the connection. `starting` has the
channels whose service handler runs, and `closing` the entries that `close_channels` has not come to; `erasedEnd` is a
history variable: `erase` was called with `end()`. -/
structure State where
  mem : Nat → Impl := fun _ => ⟨0, 0, true, false, false⟩
  made : Nat := 0
  handles : List (Option Nat) := []
  starting : List Nat := []
  channels : AList fun _ : BitVec 32 => Nat := ∅
  nextChanNum : BitVec 16 := 1000
  closing : Option (List (BitVec 32)) := none
  erasedEnd : Bool := false

/-- What happens: `open_channel`, data for a channel that is in the map or not, with a service for it or not, the return of
the service handler or an exception out of it, copies of a channel object, `find_channel` where it comes to this entry,
`close` of a channel object, and `close_channels` with the entries in any order. -/
inductive Event where
  | openChannel (rport : BitVec 16)
  | data (src dst : BitVec 16) (service : Bool)
  | returns (p : Nat)
  | throws (p : Nat)
  | copy (h : Nat)
  | find (k : BitVec 32)
  | close (h : Nat)
  | closeChannels
  | reset (k : BitVec 32)
  | clear
  deriving DecidableEq, Repr

namespace State

def put (s : State) (p : Nat) (i : Impl) : State := { s with mem := Function.update s.mem p i }

/-- `channel( con, r, l )`; the object itself is not kept. -/
def make (s : State) (r l : BitVec 16) : State := { s.put s.made { rport := r, lport := l } with made := s.made + 1 }

/-- `add_channel`, and the assignment in `handle_data_msg`. -/
def addChannel (s : State) (p : Nat) : State :=
  { s.put p { s.mem p with listed := true } with channels := s.channels.insert (s.mem p).key p }

/-- `connection::close_channel`. -/
def closeChannel (s : State) (k : BitVec 32) : State :=
  if k ∈ s.channels then { s with channels := s.channels.erase k } else { s with erasedEnd := true }

/-- `channel::close` of the object `h`, which points to `p`. -/
def close (s : State) (h p : Nat) : State :=
  let s := if (s.mem p).con then s.closeChannel (s.mem p).key else s
  { s.put p { s.mem p with closed := true } with handles := s.handles.set h none }

def target (s : State) (h : Nat) : Option Nat := s.handles[h]?.join

end State

/-- One event; `none` where it is not possible. -/
def step (s : State) : Event → Option State
  | .openChannel rport =>
    let n := s.nextChanNum + 1
    let s := { s with nextChanNum := n }
    -- `get_free_channel_num` throws at zero, and counts on at the next call
    if n = 0 then some s
    else some { (s.make rport n).addChannel s.made with handles := s.handles ++ [some s.made] }
  | .data src dst service =>
    if keyOf dst src ∈ s.channels ∨ service = false then some s
    else some { s.make src dst with starting := s.starting ++ [s.made], handles := s.handles ++ [some s.made] }
  | .returns p => if p ∈ s.starting then some ({ s with starting := s.starting.erase p }.addChannel p) else none
  | .throws p => if p ∈ s.starting then some { s with starting := s.starting.erase p } else none
  | .copy h => s.handles[h]?.map fun my => { s with handles := s.handles ++ [my] }
  | .find k => (s.channels.lookup k).map fun p => { s with handles := s.handles ++ [some p] }
  | .close h =>
    match s.target h with
    | none => some s
    | some p => some (s.close h p)
  | .closeChannels => if s.closing = none then some { s with closing := some s.channels.keys } else none
  | .reset k =>
    match s.closing, s.channels.lookup k with
    | some todo, some p => some { s.put p { s.mem p with con := false } with closing := some (todo.erase k) }
    | _, _ => none
  | .clear =>
    match s.closing with
    | some todo => if todo.all (· ∉ s.channels) then some { s with channels := ∅, closing := none } else none
    | none => none

/-- No call of `close_channel` has missed its key, and no closed channel is in the map, unless `close_channels` is about to
clear it. -/
structure Consistent (s : State) : Prop where
  found : s.erasedEnd = false
  live : s.closing = none → ∀ k, ∀ p ∈ s.channels.lookup k, (s.mem p).closed = false

/-- The close of a channel that was closed changes nothing but the channel object. -/
def Idle (s : State) : Event → State → Prop
  | .close h, t => ∀ p ∈ s.target h, (s.mem p).closed = true → t = { s with handles := s.handles.set h none }
  | _, _ => True

/-- A new channel has a key of its own and does not come while `close_channels` runs; and a channel is closed that is in
the map and was not closed before, unless `close_channels` has cut it off. -/
def Good (s : State) : Event → Prop
  | .openChannel rport => s.nextChanNum + 1 ≠ 0 → keyOf (s.nextChanNum + 1) rport ∉ s.channels ∧ s.closing = none
  | .returns p => (s.mem p).key ∉ s.channels ∧ s.closing = none
  | .close h => ∀ p ∈ s.target h, (s.mem p).con = true → (s.mem p).listed = true ∧ (s.mem p).closed = false
  | _ => True

instance (s : State) : DecidablePred (Good s)
  | .openChannel _ => inferInstanceAs (Decidable (s.nextChanNum + 1 ≠ 0 → _ ∧ s.closing = none))
  | .returns _ => inferInstanceAs (Decidable (_ ∧ s.closing = none))
  | .close h => inferInstanceAs (Decidable (∀ p ∈ s.target h, _ → _ ∧ _))
  | .data _ _ _ | .throws _ | .copy _ | .find _ | .closeChannels | .reset _ | .clear => inferInstanceAs (Decidable True)

/-- A channel in use: in the map, not closed, with its connection. -/
def Impl.InUse (i : Impl) : Prop := i.listed = true ∧ i.con = true ∧ i.closed = false

/-- The map has exactly the channels in use, and those that `close_channels` has cut off. -/
structure Inv (s : State) : Prop where
  found : s.erasedEnd = false
  sound : ∀ k, ∀ p ∈ s.channels.lookup k, p < s.made ∧ (s.mem p).key = k ∧ (s.mem p).listed = true ∧
    ((s.mem p).con = true → (s.mem p).closed = false)
  complete : ∀ p < s.made, (s.mem p).InUse → s.channels.lookup (s.mem p).key = some p
  starting : ∀ p ∈ s.starting, p < s.made ∧ (s.mem p).listed = false ∧ (s.mem p).con = true ∧ (s.mem p).closed = false
  nodup : s.starting.Nodup
  pointers : ∀ p, some p ∈ s.handles → p < s.made
  kept : s.closing = none → ∀ k, ∀ p ∈ s.channels.lookup k, (s.mem p).con = true
  todo : ∀ todo ∈ s.closing, ∀ k, ∀ p ∈ s.channels.lookup k, k ∈ todo ∨ (s.mem p).con = false

namespace Inv

variable {s : State} {p h : Nat}

theorem init : Inv {} where
  found := rfl
  sound := fun k p hp => by cases hp
  complete := fun p hp => absurd hp (Nat.not_lt_zero p)
  starting := fun p hp => by cases hp
  nodup := List.nodup_nil
  pointers := fun p hp => by cases hp
  kept := fun _ k p hp => by cases hp
  todo := fun todo ht => by cases ht

private theorem consistent (h : Inv s) : Consistent s :=
  ⟨h.found, fun hc k p hp => (h.sound k p hp).2.2.2 (h.kept hc k p hp)⟩

/-- Objects and the port counter come and go. -/
theorem objects (hs : Inv s) {hs' : List (Option Nat)} {n : BitVec 16} (hp : ∀ p, some p ∈ hs' → p < s.made) :
    Inv { s with handles := hs', nextChanNum := n } :=
  { hs with pointers := hp }

theorem make (hs : Inv s) (r l : BitVec 16) : Inv (s.make r l) := by
  have hold : ∀ p < s.made, (s.make r l).mem p = s.mem p := fun p hp => Function.update_of_ne (Nat.ne_of_lt hp) _ _
  have hnew : (s.make r l).mem s.made = { rport := r, lport := l } := Function.update_self ..
  refine ⟨hs.found, fun k p hp => ?_, fun p hp huse => ?_, fun p hp => ?_, hs.nodup, fun p hp => ?_, fun hc k p hp => ?_,
    fun todo ht k p hp => ?_⟩
  · obtain ⟨hlt, hi⟩ := hs.sound k p hp
    rw [hold p hlt]
    exact ⟨Nat.lt_succ_of_lt hlt, hi⟩
  · rcases Nat.lt_succ_iff_lt_or_eq.mp hp with hlt | rfl
    · rw [hold p hlt] at huse ⊢
      exact hs.complete p hlt huse
    · rw [hnew] at huse
      cases huse.1
  · obtain ⟨hlt, hi⟩ := hs.starting p hp
    rw [hold p hlt]
    exact ⟨Nat.lt_succ_of_lt hlt, hi⟩
  · exact Nat.lt_succ_of_lt (hs.pointers p hp)
  · rw [hold p (hs.sound k p hp).1]
    exact hs.kept hc k p hp
  · rw [hold p (hs.sound k p hp).1]
    exact hs.todo todo ht k p hp

theorem mem_make (s : State) (r l : BitVec 16) : (s.make r l).mem s.made = { rport := r, lport := l } :=
  Function.update_self ..

private theorem made_not_starting (hs : Inv s) : s.made ∉ s.starting := fun h => Nat.lt_irrefl _ (hs.starting _ h).1

theorem pointers_append (hs : Inv s) {my : Option Nat} {n : Nat} (hn : s.made ≤ n) (hmy : ∀ p ∈ my, p < n) :
    ∀ p, some p ∈ s.handles ++ [my] → p < n := by
  intro p hp
  rcases List.mem_append.mp hp with hp | hp
  · exact Nat.lt_of_lt_of_le (hs.pointers p hp) hn
  · exact hmy p (List.mem_singleton.mp hp).symm

/-- The service handler gets a channel that is not in the map. -/
theorem start (hs : Inv s) (r l : BitVec 16) :
    Inv { s.make r l with starting := s.starting ++ [s.made], handles := s.handles ++ [some s.made] } := by
  refine { hs.make r l with starting := fun p hp => ?_, nodup := ?_, pointers := ?_ }
  · rcases List.mem_append.mp hp with hp | hp
    · exact (hs.make r l).starting p hp
    · rw [List.mem_singleton.mp hp, mem_make]
      exact ⟨Nat.lt_succ_self _, rfl, rfl, rfl⟩
  · rw [List.nodup_append]
    refine ⟨hs.nodup, List.nodup_singleton _, fun a ha b hb => ?_⟩
    rw [List.mem_singleton.mp hb]
    exact ne_of_mem_of_not_mem ha hs.made_not_starting
  · apply hs.pointers_append (Nat.le_succ _)
    intro p hp
    rw [← Option.some.inj hp]
    exact Nat.lt_succ_self _

/-- It has returned, or has thrown. -/
theorem finish (hs : Inv s) (p : Nat) : Inv { s with starting := s.starting.erase p } :=
  { hs with
    starting := fun q hq => hs.starting q (List.mem_of_mem_erase hq)
    nodup := hs.nodup.erase p }

/-- One `impl` changes, and the map at most for it. -/
theorem update (hs : Inv s) {i : Impl} {m : AList fun _ : BitVec 32 => Nat} (hp : p < s.made)
    (hrest : ∀ k, ∀ q ≠ p, q ∈ m.lookup k ↔ q ∈ s.channels.lookup k)
    (hentry : ∀ k, p ∈ m.lookup k → i.key = k ∧ i.listed = true ∧ (i.con = true → i.closed = false) ∧
      (s.closing = none → i.con = true) ∧ ∀ todo ∈ s.closing, k ∈ todo ∨ i.con = false)
    (huse : i.InUse → m.lookup i.key = some p) (hstart : p ∉ s.starting) :
    Inv { s.put p i with channels := m } := by
  have hold : ∀ q, q ≠ p → Function.update s.mem p i q = s.mem q := fun q hq => Function.update_of_ne hq _ _
  have hnew : Function.update s.mem p i p = i := Function.update_self ..
  refine ⟨hs.found, fun k q hq => ?_, fun q hq => ?_, fun q hq => ?_, hs.nodup, hs.pointers, fun hc k q hq => ?_,
    fun todo ht k q hq => ?_⟩ <;> simp only [State.put] at hq ⊢
  · by_cases hqp : q = p
    · subst hqp
      obtain ⟨h1, h2, h3, -⟩ := hentry k hq
      rw [hnew]
      exact ⟨hp, h1, h2, h3⟩
    · rw [hold q hqp]
      exact hs.sound k q ((hrest k q hqp).mp hq)
  · by_cases hqp : q = p
    · subst hqp
      rw [hnew]
      exact huse
    · rw [hold q hqp]
      intro hq'
      exact (hrest _ q hqp).mpr (hs.complete q hq hq')
  · rw [hold q (ne_of_mem_of_not_mem hq hstart)]
    exact hs.starting q hq
  · by_cases hqp : q = p
    · subst hqp
      rw [hnew]
      exact (hentry k hq).2.2.2.1 hc
    · rw [hold q hqp]
      exact hs.kept hc k q ((hrest k q hqp).mp hq)
  · by_cases hqp : q = p
    · subst hqp
      rw [hnew]
      exact (hentry k hq).2.2.2.2 todo ht
    · rw [hold q hqp]
      exact hs.todo todo ht k q ((hrest k q hqp).mp hq)

/-- A channel with a key of its own is put into the map. -/
theorem addChannel (hs : Inv s) (hp : p < s.made) (hcon : (s.mem p).con = true) (hopen : (s.mem p).closed = false)
    (hstart : p ∉ s.starting) (hkey : (s.mem p).key ∉ s.channels) (hclosing : s.closing = none) : Inv (s.addChannel p) := by
  refine hs.update hp (fun k q hq => ?_) (fun k hk => ?_) (fun _ => AList.lookup_insert _) hstart
  · by_cases hk : k = (s.mem p).key
    · subst hk
      rw [AList.lookup_insert, AList.lookup_eq_none.mpr hkey]
      simp [Ne.symm hq]
    · rw [AList.lookup_insert_ne hk]
  · refine ⟨?_, rfl, fun _ => hopen, fun _ => hcon, ?_⟩
    · by_contra hne
      have hne : k ≠ (s.mem p).key := Ne.symm hne
      rw [AList.lookup_insert_ne hne] at hk
      exact hne (hs.sound k p hk).2.1.symm
    · rw [hclosing]
      intro todo ht
      cases ht

/-- `channel::close` of a channel in use: the entry that is erased is its own. -/
theorem erase (hs : Inv s) (hp : p < s.made) (huse : (s.mem p).InUse) :
    Inv { s.put p { s.mem p with closed := true } with channels := s.channels.erase (s.mem p).key } := by
  have hown := hs.complete p hp huse
  refine hs.update hp (fun k q hq => ?_) (fun k hk => ?_) (fun h => ?_) fun hstart => ?_
  · by_cases hk : k = (s.mem p).key
    · subst hk
      rw [AList.lookup_erase, hown]
      simp [Ne.symm hq]
    · rw [AList.lookup_erase_ne hk]
  · have hne : k ≠ (s.mem p).key := by
      rintro rfl
      rw [AList.lookup_erase] at hk
      cases hk
    rw [AList.lookup_erase_ne hne] at hk
    exact absurd (hs.sound k p hk).2.1.symm hne
  · cases h.2.2
  · exact Bool.false_ne_true ((hs.starting p hstart).2.1.symm.trans huse.1)

/-- `channel::close` of a channel that is cut off. -/
theorem closeCut (hs : Inv s) (hp : p < s.made) (hcon : (s.mem p).con = false) :
    Inv (s.put p { s.mem p with closed := true }) := by
  refine hs.update hp (fun k q _ => Iff.rfl) (fun k hk => ?_) (fun h => ?_) fun hstart => ?_
  · obtain ⟨-, hkey, hlisted, -⟩ := hs.sound k p hk
    refine ⟨hkey, hlisted, fun h => ?_, fun hc => hs.kept hc k p hk, fun _ _ => .inr hcon⟩
    exact absurd (hcon.symm.trans h) Bool.false_ne_true
  · cases h.2.2
  · exact Bool.false_ne_true (hcon.symm.trans (hs.starting p hstart).2.2.1)

/-- `channel::reset` of an entry, in `close_channels`. -/
theorem reset (hs : Inv s) {k : BitVec 32} {todo : List (BitVec 32)} (hk : p ∈ s.channels.lookup k)
    (hclosing : s.closing = some todo) :
    Inv { s.put p { s.mem p with con := false } with closing := some (todo.erase k) } := by
  obtain ⟨hp, hkey, hlisted, -⟩ := hs.sound k p hk
  have hcut : Inv (s.put p { s.mem p with con := false }) := by
    refine hs.update hp (fun k q _ => Iff.rfl) (fun k' hk' => ?_) (fun h => ?_) fun hstart => ?_
    · refine ⟨(hs.sound k' p hk').2.1, hlisted, fun h => (by cases h), fun hc => ?_, fun _ _ => .inr rfl⟩
      rw [hclosing] at hc
      cases hc
    · cases h.2.1
    · exact Bool.false_ne_true ((hs.starting p hstart).2.1.symm.trans hlisted)
  refine { hcut with kept := fun hc => (by cases hc), todo := fun todo' ht k' q hq => ?_ }
  obtain rfl : todo.erase k = todo' := Option.some.inj ht
  rcases hcut.todo todo hclosing k' q hq with hmem | hcon
  · by_cases heq : k' = k
    · subst heq
      obtain rfl : p = q := Option.some.inj (hk.symm.trans hq)
      right
      simp [State.put]
    · exact .inl ((List.mem_erase_of_ne heq).mpr hmem)
  · exact .inr hcon

/-- `clear`, after all entries that were there are cut off or gone. -/
theorem clear (hs : Inv s) {todo : List (BitVec 32)} (hclosing : s.closing = some todo)
    (hgone : ∀ k ∈ todo, k ∉ s.channels) : Inv { s with channels := ∅, closing := none } := by
  refine { hs with
    sound := fun k q hq => (by cases hq)
    complete := fun q hq huse => ?_
    kept := fun _ k q hq => (by cases hq)
    todo := fun todo ht => (by cases ht) }
  have hlook := hs.complete q hq huse
  rcases hs.todo todo hclosing _ q hlook with hmem | hcon
  · exact absurd (AList.lookup_isSome.mp (Option.isSome_of_mem hlook)) (hgone _ hmem)
  · exact absurd (hcon.symm.trans huse.2.1) Bool.false_ne_true

private theorem target_lt (hs : Inv s) (hp : p ∈ s.target h) : p < s.made := by
  apply hs.pointers p
  exact List.mem_of_getElem? (Option.join_eq_some_iff.mp hp)

/-- `channel::close`, and what it does where the channel was closed before. -/
theorem close (hs : Inv s) (hp : p ∈ s.target h) (hgood : Good s (.close h)) :
    Inv (s.close h p) ∧ ((s.mem p).closed = true → s.close h p = { s with handles := s.handles.set h none }) := by
  have hlt := hs.target_lt hp
  have hpointers : ∀ q, some q ∈ s.handles.set h none → q < s.made := by
    intro q hq
    rcases List.mem_or_eq_of_mem_set hq with hq | hq
    · exact hs.pointers q hq
    · cases hq
  cases hcon : (s.mem p).con with
  | true =>
    obtain ⟨hlisted, hopen⟩ := hgood p hp hcon
    have huse : (s.mem p).InUse := ⟨hlisted, hcon, hopen⟩
    have hmem : (s.mem p).key ∈ s.channels := by
      rw [← AList.lookup_isSome, hs.complete p hlt huse]
      rfl
    refine ⟨?_, fun hclosed => absurd (hopen.symm.trans hclosed) Bool.false_ne_true⟩
    rw [State.close, if_pos hcon, State.closeChannel, if_pos hmem]
    exact (hs.erase hlt huse).objects hpointers
  | false =>
    have heq : s.close h p = { s.put p { s.mem p with closed := true } with handles := s.handles.set h none } := by
      rw [State.close, hcon]
      rfl
    rw [heq]
    refine ⟨(hs.closeCut hlt hcon).objects hpointers, fun hclosed => ?_⟩
    have hsame : { s.mem p with closed := true } = s.mem p := by rw [← hclosed]
    rw [hsame, State.put, Function.update_eq_self]

end Inv

/-- A good step keeps the map and closes nothing twice. -/
theorem inv_step {s t : State} {e : Event} (hs : Inv s) (hgood : Good s e) (ht : step s e = some t) :
    (Consistent t ∧ Idle s e t) ∧ Inv t := by
  suffices h : Idle s e t ∧ Inv t from ⟨⟨h.2.consistent, h.1⟩, h.2⟩
  cases e with
  | openChannel rport =>
    refine ⟨trivial, ?_⟩
    simp only [step] at ht
    split_ifs at ht with hzero
    · cases ht
      exact hs.objects hs.pointers
    · cases ht
      obtain ⟨hkey, hclosing⟩ := hgood hzero
      have hmake := (hs.objects hs.pointers (n := s.nextChanNum + 1)).make rport (s.nextChanNum + 1)
      have hmem := Inv.mem_make { s with nextChanNum := s.nextChanNum + 1 } rport (s.nextChanNum + 1)
      refine (hmake.addChannel (Nat.lt_succ_self s.made) ?_ ?_ hs.made_not_starting ?_ hclosing).objects ?_
      · rw [hmem]
      · rw [hmem]
      · rw [hmem]
        exact hkey
      · apply hs.pointers_append (Nat.le_succ _)
        intro p hp
        rw [← Option.some.inj hp]
        exact Nat.lt_succ_self _
  | data src dst service =>
    refine ⟨trivial, ?_⟩
    simp only [step] at ht
    split_ifs at ht
    · cases ht
      exact hs
    · cases ht
      exact hs.start src dst
  | returns p =>
    refine ⟨trivial, ?_⟩
    simp only [step] at ht
    split_ifs at ht with hp
    cases ht
    obtain ⟨hlt, -, hcon, hopen⟩ := hs.starting p hp
    exact (hs.finish p).addChannel hlt hcon hopen hs.nodup.not_mem_erase hgood.1 hgood.2
  | throws p =>
    refine ⟨trivial, ?_⟩
    simp only [step] at ht
    split_ifs at ht
    cases ht
    exact hs.finish p
  | copy h =>
    refine ⟨trivial, ?_⟩
    obtain ⟨my, hmy, rfl⟩ := Option.map_eq_some_iff.mp ht
    apply hs.objects
    apply hs.pointers_append (Nat.le_refl _)
    rintro p rfl
    exact hs.pointers p (List.mem_of_getElem? hmy)
  | find k =>
    refine ⟨trivial, ?_⟩
    obtain ⟨q, hq, rfl⟩ := Option.map_eq_some_iff.mp ht
    apply hs.objects
    apply hs.pointers_append (Nat.le_refl _)
    intro p hp
    rw [← Option.some.inj hp]
    exact (hs.sound k q hq).1
  | close h =>
    simp only [step] at ht
    split at ht
    · rename_i hnone
      cases ht
      refine ⟨fun p hp => ?_, hs⟩
      rw [hnone] at hp
      cases hp
    · rename_i p hp
      cases ht
      obtain ⟨hinv, hidle⟩ := hs.close hp hgood
      refine ⟨fun q hq => ?_, hinv⟩
      obtain rfl : p = q := Option.some.inj (hp.symm.trans hq)
      exact hidle
  | closeChannels =>
    refine ⟨trivial, ?_⟩
    simp only [step] at ht
    split_ifs at ht
    cases ht
    refine { hs with kept := fun hc => (by cases hc), todo := fun todo ht k q hq => .inl ?_ }
    obtain rfl : s.channels.keys = todo := Option.some.inj ht
    exact AList.lookup_isSome.mp (Option.isSome_of_mem hq)
  | reset k =>
    refine ⟨trivial, ?_⟩
    simp only [step] at ht
    split at ht
    · rename_i todo p hclosing hk
      cases ht
      exact hs.reset hk hclosing
    · cases ht
  | clear =>
    refine ⟨trivial, ?_⟩
    simp only [step] at ht
    split at ht
    · rename_i todo hclosing
      split_ifs at ht with hgone
      cases ht
      exact hs.clear hclosing (by simpa using hgone)
    · cases ht

/-- In every run whose steps are good, every call of `close_channel` finds its key, no closed channel is left in the map,
and to close a channel again changes nothing. -/
theorem channels_consistent {es : List Event} (hg : Guarded step Good {} es) :
    Always step (fun s e t => Consistent t ∧ Idle s e t) {} es :=
  always_of_guarded Inv (fun _ _ _ => inv_step) .init hg

/-- Two copies of one channel, both closed after the connection was closed; and a service. -/
def inTurn : List Event :=
  [.data 7 53 true, .returns 0, .openChannel 9, .copy 1, .close 0, .closeChannels, .reset (keyOf 1001 9), .clear,
    .close 1, .close 2]

theorem channels_consistent_inTurn : (∃ s, s ∈ run step {} inTurn ∧ s.handles = [none, none, none]) ∧
    Always step (fun s e t => Consistent t ∧ Idle s e t) {} inTurn :=
  ⟨by decide +kernel, channels_consistent (by decide +kernel)⟩

/-- A second copy is closed: `close_channel` erases `end()`. A service handler closes its channel: it erases `end()` too, and
the closed channel is put into the map. -/
theorem channels_twice :
    (∃ s, s ∈ run step {} [.openChannel 9, .copy 0, .close 0, .close 1] ∧ s.erasedEnd = true) ∧
    ∃ s, s ∈ run step {} [.data 7 53 true, .close 0, .returns 0] ∧ s.erasedEnd = true ∧ s.closing = none ∧
      s.channels.lookup (keyOf 53 7) = some 0 ∧ (s.mem 0).closed = true := by
  decide +kernel

end Tornet.Connection.Channels
