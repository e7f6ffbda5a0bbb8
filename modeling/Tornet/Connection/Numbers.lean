import Mathlib.Tactic.ByContra
import Tornet.Connection.Channels

/-! The numbers that `get_free_channel_num` gives out: a counter of 16 bits that starts at 1000. -/
namespace Tornet.Connection.Channels
open Library Runs

/-- Channels come from `open_channel` and from services, which listen on the ports below 1000. -/
def WellKnown : Event → Prop
  | .data _ dst service => service = true → dst.toNat < 1000
  | _ => True

instance : DecidablePred WellKnown
  | .data _ dst service => inferInstanceAs (Decidable (service = true → dst.toNat < 1000))
  | .openChannel _ | .returns _ | .throws _ | .copy _ | .find _ | .close _ | .closeChannels | .reset _ | .clear =>
    isTrue trivial

/-- A number that is returned is no well-known port and no local number in `_channels`, and `add_channel` leaves the
channels there are. -/
def FreshNumber (s : State) : Event → State → Prop
  | .openChannel _, t =>
    s.nextChanNum + 1 ≠ 0 → 1000 ≤ (s.nextChanNum + 1).toNat ∧ (∀ r, keyOf (s.nextChanNum + 1) r ∉ s.channels) ∧
      ∀ k ∈ s.channels, t.channels.lookup k = s.channels.lookup k
  | _, _ => True

/-- The calls of `open_channel`. -/
def opens : Event → Nat
  | .openChannel _ => 1
  | _ => 0

variable {s t u : State} {e : Event} {n : Nat}

private theorem keyOf_left {l l' r r' : BitVec 16} (h : keyOf l r = keyOf l' r') : l = l' := by
  have hleft (l r : BitVec 16) : (keyOf l r).extractLsb' 16 16 = l := by
    rw [keyOf, BitVec.extractLsb'_append_eq_of_le le_rfl, Nat.sub_self, BitVec.extractLsb'_eq_self]
  rw [← hleft l r, h, hleft]

theorem mem_put_self (s : State) (p : Nat) (i : Impl) : (s.put p i).mem p = i := Function.update_self ..

private theorem mem_put_of_ne (s : State) {p q : Nat} (i : Impl) (h : q ≠ p) : (s.put p i).mem q = s.mem q :=
  Function.update_of_ne h _ _

/-- After `n` calls: no local number is above the counter as it would be without the wrap. -/
structure Numbered (n : Nat) (s : State) : Prop where
  counter : s.nextChanNum = BitVec.ofNat 16 (1000 + n)
  registered : ∀ l r, keyOf l r ∈ s.channels → l.toNat ≤ 1000 + n
  starting : ∀ p ∈ s.starting, p < s.made ∧ (s.mem p).lport.toNat < 1000

namespace Numbered

theorem init : Numbered 0 {} where
  counter := rfl
  registered := fun l r h => absurd h (AList.notMem_empty _)
  starting := fun p hp => by cases hp

/-- One `impl` changes, but not its local number. -/
theorem put (h : Numbered n s) {p : Nat} {i : Impl} (hi : i.lport = (s.mem p).lport) : Numbered n (s.put p i) := by
  refine ⟨h.counter, h.registered, fun q hq => ?_⟩
  obtain ⟨hlt, hport⟩ := h.starting q hq
  refine ⟨hlt, ?_⟩
  by_cases hqp : q = p
  · subst hqp
    rwa [mem_put_self, hi]
  · rwa [mem_put_of_ne s i hqp]

theorem make (h : Numbered n s) (r l : BitVec 16) : Numbered n (s.make r l) := by
  refine ⟨h.counter, h.registered, fun q hq => ?_⟩
  obtain ⟨hlt, hport⟩ := h.starting q hq
  refine ⟨Nat.lt_succ_of_lt hlt, ?_⟩
  show ((s.put s.made { rport := r, lport := l }).mem q).lport.toNat < 1000
  rwa [mem_put_of_ne s _ (Nat.ne_of_lt hlt)]

theorem objects (h : Numbered n s) (hs : List (Option Nat)) : Numbered n { s with handles := hs } :=
  ⟨h.counter, h.registered, h.starting⟩

theorem finish (h : Numbered n s) (p : Nat) : Numbered n { s with starting := s.starting.erase p } :=
  ⟨h.counter, h.registered, fun q hq => h.starting q (List.mem_of_mem_erase hq)⟩

/-- A channel is put into the map. -/
theorem addChannel (h : Numbered n s) {p : Nat} (hp : (s.mem p).lport.toNat ≤ 1000 + n) : Numbered n (s.addChannel p) := by
  have hput : Numbered n (s.put p { s.mem p with listed := true }) := h.put rfl
  refine ⟨hput.counter, fun l r hk => ?_, hput.starting⟩
  rcases AList.mem_insert _ |>.mp hk with hkey | hold
  · rwa [keyOf_left hkey]
  · exact h.registered l r hold

/-- Entries are taken out of it. -/
theorem remove (h : Numbered n s) {m : AList fun _ : BitVec 32 => Nat} (hm : ∀ k ∈ m, k ∈ s.channels)
    (c : Option (List (BitVec 32))) (b : Bool) : Numbered n { s with channels := m, closing := c, erasedEnd := b } :=
  ⟨h.counter, fun l r hk => h.registered l r (hm _ hk), h.starting⟩

theorem closeChannel (h : Numbered n s) (k : BitVec 32) : Numbered n (s.closeChannel k) := by
  rw [State.closeChannel]
  split_ifs
  · exact h.remove (fun k hk => (AList.mem_erase.mp hk).2) _ _
  · exact h.remove (fun k hk => hk) _ _

theorem close (h : Numbered n s) (i p : Nat) : Numbered n (s.close i p) := by
  simp only [State.close]
  split_ifs with hcon
  · have hput := (h.closeChannel (s.mem p).key).put (p := p)
      (i := { (s.closeChannel (s.mem p).key).mem p with closed := true }) rfl
    exact hput.objects _
  · have hput := h.put (p := p) (i := { s.mem p with closed := true }) rfl
    exact hput.objects _

end Numbered

/-- The counter is one further after `open_channel`, with the new channel under it or none. -/
theorem Numbered.openChannel (h : Numbered n s) {r : BitVec 16} (ht : step s (.openChannel r) = some t) :
    Numbered (n + 1) t := by
  have hnext : s.nextChanNum + 1 = BitVec.ofNat 16 (1000 + (n + 1)) := by
    rw [h.counter, ← Nat.add_assoc, BitVec.ofNat_add (1000 + n)]
    rfl
  have hcount : Numbered (n + 1) { s with nextChanNum := s.nextChanNum + 1 } :=
    ⟨hnext, fun l r hk => Nat.le_trans (h.registered l r hk) (by omega), h.starting⟩
  simp only [step] at ht
  split_ifs at ht with hzero
  · obtain rfl := Option.some.inj ht
    exact hcount
  · obtain rfl := Option.some.inj ht
    have hmade := hcount.make r (s.nextChanNum + 1)
    refine (hmade.addChannel ?_).objects _
    show (Function.update s.mem s.made { rport := r, lport := s.nextChanNum + 1 } s.made).lport.toNat ≤ _
    rw [Function.update_self, hnext, BitVec.toNat_ofNat]
    exact Nat.mod_le _ _

theorem numbered_step (h : Numbered n s) (he : WellKnown e) (ht : step s e = some t) : Numbered (n + opens e) t := by
  cases e with
  | openChannel r => exact h.openChannel ht
  | data src dst service =>
    simp only [step] at ht
    split_ifs at ht with hskip
    · obtain rfl := Option.some.inj ht
      exact h
    · obtain rfl := Option.some.inj ht
      have hservice : service = true := by
        by_contra hno
        exact hskip (.inr (Bool.not_eq_true _ ▸ hno))
      have hmade := h.make src dst
      refine ⟨h.counter, h.registered, fun p hp => ?_⟩
      rcases List.mem_append.mp hp with hp | hp
      · exact hmade.starting p hp
      · rw [List.mem_singleton.mp hp, Inv.mem_make]
        exact ⟨Nat.lt_succ_self _, he hservice⟩
  | returns p =>
    simp only [step] at ht
    split_ifs at ht with hp
    obtain rfl := Option.some.inj ht
    have hport := (h.starting p hp).2
    exact (h.finish p).addChannel (Nat.le_trans (Nat.le_of_lt hport) (Nat.le_add_right _ _))
  | throws p =>
    simp only [step] at ht
    split_ifs at ht
    obtain rfl := Option.some.inj ht
    exact h.finish p
  | copy i =>
    obtain ⟨my, -, rfl⟩ := Option.map_eq_some_iff.mp ht
    exact h.objects _
  | find k =>
    obtain ⟨p, -, rfl⟩ := Option.map_eq_some_iff.mp ht
    exact h.objects _
  | close i =>
    simp only [step] at ht
    split at ht
    · obtain rfl := Option.some.inj ht
      exact h
    · obtain rfl := Option.some.inj ht
      exact h.close i _
  | closeChannels =>
    simp only [step] at ht
    split_ifs at ht
    obtain rfl := Option.some.inj ht
    exact h.remove (fun k hk => hk) _ _
  | reset k =>
    simp only [step] at ht
    split at ht
    · rename_i todo p _ _
      obtain rfl := Option.some.inj ht
      have hput := h.put (p := p) (i := { s.mem p with con := false }) rfl
      exact hput.remove (fun k hk => hk) _ _
    · cases ht
  | clear =>
    simp only [step] at ht
    split at ht
    · split_ifs at ht
      obtain rfl := Option.some.inj ht
      exact h.remove (fun k hk => absurd hk (AList.notMem_empty _)) _ _
    · cases ht

/-- Before the wrap the number is above all that are registered. -/
theorem Numbered.fresh (h : Numbered n s) (hn : n < 64536) (ht : step s e = some t) : FreshNumber s e t := by
  cases e with
  | openChannel r =>
    intro hne
    have hlt : n ≠ 64535 := by
      rintro rfl
      rw [h.counter] at hne
      exact hne rfl
    have hnext : (s.nextChanNum + 1).toNat = 1001 + n := by
      have hone : BitVec.toNat (1 : BitVec 16) = 1 := rfl
      rw [h.counter, BitVec.toNat_add, BitVec.toNat_ofNat, hone]
      omega
    have hkey (r : BitVec 16) : keyOf (s.nextChanNum + 1) r ∉ s.channels := by
      intro hmem
      have := h.registered _ r hmem
      omega
    refine ⟨by omega, hkey, fun k hk => ?_⟩
    simp only [step, if_neg hne] at ht
    obtain rfl := Option.some.inj ht
    apply AList.lookup_insert_ne
    rintro rfl
    rw [Inv.mem_make] at hk
    exact hkey r hk
  | data _ _ _ | returns _ | throws _ | copy _ | find _ | close _ | closeChannels | reset _ | clear => exact trivial

/-- After it the first number is 1. -/
theorem Numbered.stale (h : Numbered 64536 s) (r : BitVec 16) : ¬ FreshNumber s (.openChannel r) t := by
  intro hfresh
  have hone : s.nextChanNum + 1 = 1 := by
    rw [h.counter]
    rfl
  have hport := (hfresh (by rw [hone]; decide)).1
  rw [hone] at hport
  exact absurd hport (by decide)

/-- From any point of a run on, by induction on the events. -/
theorem Numbered.always_iff {es : List Event} (h : Numbered n s) (hn : n ≤ 64536) (hes : ∀ e ∈ es, WellKnown e)
    (hr : run step s es = some u) : Always step FreshNumber s es ↔ n + total opens es ≤ 64536 := by
  induction es generalizing n s with
  | nil => exact iff_of_true trivial hn
  | cons e es ih =>
    obtain ⟨t, ht, hu⟩ := run_cons hr
    obtain ⟨he, hrest⟩ := List.forall_mem_cons.mp hes
    have hnext := numbered_step h he ht
    rw [always_cons ht, total, ← Nat.add_assoc]
    by_cases hmore : n + opens e ≤ 64536
    · rw [ih hnext hmore hrest hu]
      apply and_iff_right_of_imp
      intro hbound
      cases e with
      | openChannel r => exact h.fresh (Nat.lt_of_succ_le hmore) ht
      | data _ _ _ | returns _ | throws _ | copy _ | find _ | close _ | closeChannels | reset _ | clear => exact trivial
    · apply iff_of_false _ (by omega)
      intro hboth
      cases e with
      | openChannel r =>
        obtain rfl : n = 64536 := by simp only [opens] at hmore; omega
        exact h.stale r hboth.1
      | data _ _ _ | returns _ | throws _ | copy _ | find _ | close _ | closeChannels | reset _ | clear => exact hmore hn

/-- The numbers of a connection are fresh in every run with at most 64536 calls of `open_channel`, of which the last one
throws, and in no other. -/
theorem fresh_numbers_iff (es : List Event) (hes : ∀ e ∈ es, WellKnown e) (u : State) (hr : run step {} es = some u) :
    Always step FreshNumber {} es ↔ total opens es ≤ 64536 := by
  rw [Numbered.init.always_iff (by decide) hes hr, Nat.zero_add]

/-- Two channels are opened, a service has its own. -/
theorem fresh_numbers_iff_inTurn : (∃ u, run step {} inTurn = some u) ∧ Always step FreshNumber {} inTurn := by
  have hrun : ∃ u, u ∈ run step {} inTurn ∧ u.handles = [none, none, none] := by decide +kernel
  obtain ⟨u, hu, -⟩ := hrun
  exact ⟨⟨u, hu⟩, (fresh_numbers_iff inTurn (by decide) u hu).mpr (by decide)⟩

/-- `open_channel` can be called any number of times. -/
theorem run_opens (s : State) (n : Nat) (r : BitVec 16) : ∃ u, run step s (List.replicate n (.openChannel r)) = some u := by
  induction n generalizing s with
  | zero => exact ⟨s, rfl⟩
  | succ n ih =>
    have hstep : ∃ t, step s (.openChannel r) = some t := by
      simp only [step]
      split_ifs
      · exact ⟨_, rfl⟩
      · exact ⟨_, rfl⟩
    obtain ⟨t, ht⟩ := hstep
    obtain ⟨u, hu⟩ := ih t
    exact ⟨u, run_cons_of ht hu⟩

private theorem total_opens (n : Nat) (r : BitVec 16) : total opens (List.replicate n (.openChannel r)) = n := by
  induction n with
  | zero => rfl
  | succ n ih => rw [List.replicate_succ, total, ih, opens, Nat.add_comm]

/-- The call after the one that throws gets the number 1. -/
theorem numbers_wrap : ¬ ∀ (es : List Event) (u : State), (∀ e ∈ es, WellKnown e) → run step {} es = some u →
    Always step FreshNumber {} es := by
  intro h
  obtain ⟨u, hu⟩ := run_opens {} 64537 0
  have hes : ∀ e ∈ List.replicate 64537 (Event.openChannel 0), WellKnown e := by
    intro e he
    rw [List.eq_of_mem_replicate he]
    trivial
  have hbound := (Numbered.init.always_iff (by decide) hes hu).mp (h _ u hes hu)
  rw [total_opens] at hbound
  omega

end Tornet.Connection.Channels
