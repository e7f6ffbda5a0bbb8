import Mathlib.Logic.Function.Basic
import Tornet.Library.Runs
import Tornet.Peer

/-! The lookups of one connection: calls of `connection::find_nodes_near`, which register a promise
under their target and wait for a route message. -/
namespace Tornet.Connection.Lookups
open Library Runs

/-- Where a call is: in `send_update_rank`, in the `send` of its request, in `prom->wait`, returned,
stopped by the assertion, or left by an exception. -/
inductive Phase where
  | ranking
  | sending
  | waiting
  | returned
  | aborted
  | failed
  deriving DecidableEq, Repr

/-- A call of `find_nodes_near`, with the value of its promise. -/
structure Lookup where
  target : Sha1
  n : UInt32
  limit : Option Sha1
  phase : Phase
  table : Option (List Tornet.Host) := none
  deriving DecidableEq, Repr

/-- `_route_lookups` goes from targets to the calls whose promises are registered; the calls are in
the order they were made. -/
structure State where
  routeLookups : Sha1 → Option Nat := fun _ => none
  lookups : List Lookup := []

/-- What happens: a call, the return of either `send`, an exception of one of them or of the wait (a
time-out), a route message, the resumption of a call whose promise has its value, and the resend of
all requests after an authentication. -/
inductive Event where
  | call (target : Sha1) (n : UInt32) (limit : Option Sha1) (rankBehind : Bool)
  | ranked (i : Nat)
  | sent (i : Nat)
  | throws (i : Nat)
  | route (target : Sha1) (table : List Tornet.Host)
  | resume (i : Nat)
  | resend
  deriving DecidableEq, Repr

namespace State

def put (s : State) (i : Nat) (l : Lookup) : State := { s with lookups := s.lookups.set i l }

/-- A new promise takes the place of any other for the target. -/
def register (s : State) (i : Nat) (l : Lookup) : State :=
  { s.put i { l with phase := .sending, table := none } with
    routeLookups := Function.update s.routeLookups l.target (some i) }

/-- The handler of the exception: what is registered for the target is erased. -/
def fail (s : State) (i : Nat) (l : Lookup) : State :=
  { s.put i { l with phase := .failed } with
    routeLookups := Function.update s.routeLookups l.target none }

/-- `find_nodes_near` up to its first `send`. -/
def findNodesNear (s : State) (target : Sha1) (n : UInt32) (limit : Option Sha1) (rankBehind : Bool) : State :=
  let l : Lookup := { target, n, limit, phase := .ranking }
  let t := { s with lookups := s.lookups ++ [l] }
  if rankBehind then t else t.register s.lookups.length l

/-- `handle_route_msg`, for a message that can be read. -/
def handleRouteMsg (s : State) (target : Sha1) (table : List Tornet.Host) : State :=
  match s.routeLookups target with
  | none => s
  | some i =>
    { routeLookups := Function.update s.routeLookups target none
      lookups := s.lookups.modify i fun l => { l with table := some table } }

end State

/-- One event; `none` where the call is not at that point. -/
def step (s : State) : Event → Option State
  | .call target n limit rankBehind => some (s.findNodesNear target n limit rankBehind)
  | .ranked i => do
    let l ← s.lookups[i]?
    if l.phase = .ranking then some (s.register i l) else none
  | .sent i => do
    let l ← s.lookups[i]?
    if l.phase = .sending then some (s.put i { l with phase := .waiting }) else none
  | .throws i => do
    let l ← s.lookups[i]?
    if l.phase = .ranking ∨ l.phase = .sending ∨ l.phase = .waiting ∧ l.table = none then some (s.fail i l)
    else none
  | .route target table => some (s.handleRouteMsg target table)
  | .resume i => do
    let l ← s.lookups[i]?
    if l.phase = .waiting ∧ l.table ≠ none then
      -- the assertion behind the wait
      some (s.put i { l with phase := if s.routeLookups l.target = none then .returned else .aborted })
    else none
  | .resend => some s

/-- The call has registered its promise, and the promise has no value. -/
def Lookup.Waits (l : Lookup) : Prop := (l.phase = .sending ∨ l.phase = .waiting) ∧ l.table = none

instance (l : Lookup) : Decidable l.Waits :=
  inferInstanceAs (Decidable ((l.phase = .sending ∨ l.phase = .waiting) ∧ l.table = none))

/-- The calls that wait are registered, nothing else is, and no assertion has failed. -/
structure State.Sound (s : State) : Prop where
  registered : ∀ i (l : Lookup), s.lookups[i]? = some l → l.Waits → s.routeLookups l.target = some i
  waits : ∀ t i, s.routeLookups t = some i → ∃ l : Lookup, s.lookups[i]? = some l ∧ l.target = t ∧ l.Waits
  asserted : ∀ l ∈ s.lookups, l.phase ≠ .aborted

/-- A route message completes a call that waits for its target, if there is one; a call that fails
takes away no registration but its own; no other call that waits loses its registration. -/
def Kept (s : State) : Event → State → Prop
  | .route target table, t =>
    (∃ (i : Nat) (l : Lookup), s.lookups[i]? = some l ∧ l.target = target ∧ l.Waits) →
      ∃ (i : Nat) (l : Lookup), s.lookups[i]? = some l ∧ l.target = target ∧ l.Waits ∧
        t.lookups[i]? = some { l with table := some table }
  | .throws i, t => ∀ target, t.routeLookups target ≠ s.routeLookups target → s.routeLookups target = some i
  | _, t => ∀ (i : Nat) (l : Lookup), s.lookups[i]? = some l → l.Waits → t.routeLookups l.target = some i

/-- No other call for the target is registered when a call registers itself, fails without a
registration of its own, or resumes with its answer. -/
def clear (s : State) : Event → Prop
  | .call target _ _ rankBehind => rankBehind = false → s.routeLookups target = none
  | .ranked i | .resume i => ∀ l, s.lookups[i]? = some l → s.routeLookups l.target = none
  | .throws i => ∀ l, s.lookups[i]? = some l → l.Waits ∨ s.routeLookups l.target = none
  | .sent _ | .route _ _ | .resend => True

instance (s : State) : (e : Event) → Decidable (clear s e)
  | .call target _ _ rankBehind =>
    inferInstanceAs (Decidable (rankBehind = false → s.routeLookups target = none))
  | .ranked i | .resume i => inferInstanceAs (Decidable (∀ l ∈ s.lookups[i]?, s.routeLookups l.target = none))
  | .throws i =>
    inferInstanceAs (Decidable (∀ l ∈ s.lookups[i]?, l.Waits ∨ s.routeLookups l.target = none))
  | .sent _ | .route _ _ | .resend => inferInstanceAs (Decidable True)

namespace State

variable {s t : State} {i j : Nat} {l l' x : Lookup}

theorem get_put (hi : s.lookups[i]? = some l) (h : (s.put i l').lookups[j]? = some x) :
    j = i ∧ x = l' ∨ j ≠ i ∧ s.lookups[j]? = some x := by
  have hlt : i < s.lookups.length := (List.getElem?_eq_some_iff.mp hi).1
  rw [put, List.getElem?_set] at h
  split_ifs at h with hij
  · left
    exact ⟨hij.symm, (Option.some.inj h).symm⟩
  · right
    exact ⟨fun hji => hij hji.symm, h⟩

theorem put_get (hi : s.lookups[i]? = some l) : (s.put i l').lookups[i]? = some l' := by
  have hlt : i < s.lookups.length := (List.getElem?_eq_some_iff.mp hi).1
  simp [put, hlt]

theorem put_get_ne (h : j ≠ i) : (s.put i l').lookups[j]? = s.lookups[j]? := by
  simp [put, Ne.symm h]

theorem asserted_put (h : s.Sound) (hl : l'.phase ≠ .aborted) : ∀ y ∈ (s.put i l').lookups, y.phase ≠ .aborted := by
  intro y hy
  rcases List.mem_or_eq_of_mem_set hy with hy | rfl
  · exact h.asserted y hy
  · exact hl

/-- The registrations for other targets stay those of calls that wait. -/
theorem Sound.waits_put {u : Sha1} (h : s.Sound) (hi : s.lookups[i]? = some l) (hu : u ≠ l.target)
    (hj : s.routeLookups u = some j) : ∃ x, (s.put i l').lookups[j]? = some x ∧ x.target = u ∧ x.Waits := by
  obtain ⟨x, hx, hxu, hw⟩ := h.waits u j hj
  have hji : j ≠ i := by
    rintro rfl
    obtain rfl : x = l := Option.some.inj (hx.symm.trans hi)
    exact hu hxu.symm
  exact ⟨x, (put_get_ne hji).trans hx, hxu, hw⟩

/-- A call that is not registered yet changes nothing. -/
theorem Sound.push (h : s.Sound) (hl : l.phase = .ranking) :
    { s with lookups := s.lookups ++ [l] }.Sound := by
  have hnot : ¬ l.Waits := by simp [Lookup.Waits, hl]
  refine ⟨?_, ?_, ?_⟩
  · intro j x hx hw
    rw [List.getElem?_append] at hx
    split_ifs at hx
    · exact h.registered j x hx hw
    · rw [List.mem_singleton.mp (List.mem_of_getElem? hx)] at hw
      exact absurd hw hnot
  · intro u j hj
    obtain ⟨x, hx, hu, hw⟩ := h.waits u j hj
    exact ⟨x, by rw [List.getElem?_append_left (List.getElem?_eq_some_iff.mp hx).1]; exact hx, hu, hw⟩
  · intro x hx
    rcases List.mem_append.mp hx with hx | hx
    · exact h.asserted x hx
    · rw [List.mem_singleton.mp hx, hl]
      simp

/-- A step of a call that leaves it waiting or not waiting, as it was. -/
theorem Sound.put (h : s.Sound) (hi : s.lookups[i]? = some l) (ht : l'.target = l.target)
    (hw : l'.Waits ↔ l.Waits) (ha : l'.phase ≠ .aborted) : (s.put i l').Sound := by
  refine ⟨?_, ?_, asserted_put h ha⟩
  · intro j x hx hwx
    rcases get_put hi hx with ⟨rfl, rfl⟩ | ⟨-, hx⟩
    · rw [ht]
      exact h.registered j l hi (hw.mp hwx)
    · exact h.registered j x hx hwx
  · intro u j hj
    obtain ⟨x, hx, hu, hwx⟩ := h.waits u j hj
    by_cases hji : j = i
    · subst hji
      obtain rfl : x = l := Option.some.inj (hx.symm.trans hi)
      exact ⟨l', put_get hi, ht.trans hu, hw.mpr hwx⟩
    · exact ⟨x, (put_get_ne hji).trans hx, hu, hwx⟩

theorem Sound.register (h : s.Sound) (hi : s.lookups[i]? = some l)
    (hfree : s.routeLookups l.target = none) : (s.register i l).Sound := by
  refine ⟨?_, ?_, asserted_put h (by simp)⟩
  · intro j x hx hw
    rcases get_put hi hx with ⟨rfl, rfl⟩ | ⟨-, hx⟩
    · simp [State.register]
    · have hreg := h.registered j x hx hw
      have hne : x.target ≠ l.target := by
        intro heq
        rw [heq, hfree] at hreg
        cases hreg
      simpa [State.register, hne] using hreg
  · intro u j hj
    by_cases hu : u = l.target
    · subst hu
      obtain rfl : i = j := by simpa [State.register] using hj
      exact ⟨_, put_get hi, rfl, by simp [Lookup.Waits]⟩
    · exact h.waits_put hi hu (by simpa [State.register, hu] using hj)

theorem Sound.fail (h : s.Sound) (hi : s.lookups[i]? = some l)
    (hown : l.Waits ∨ s.routeLookups l.target = none) : (s.fail i l).Sound := by
  have hsame : ∀ k, s.routeLookups l.target = some k → k = i := by
    intro k hk
    rcases hown with hw | hfree
    · exact Option.some.inj (hk.symm.trans (h.registered i l hi hw))
    · rw [hfree] at hk
      cases hk
  refine ⟨?_, ?_, asserted_put h (by simp)⟩
  · intro j x hx hw
    rcases get_put hi hx with ⟨-, rfl⟩ | ⟨hji, hx⟩
    · simp [Lookup.Waits] at hw
    · have hreg := h.registered j x hx hw
      have hne : x.target ≠ l.target := fun heq => hji (hsame j (heq ▸ hreg))
      simpa [State.fail, hne] using hreg
  · intro u j hj
    have hu : u ≠ l.target := by
      rintro rfl
      simp [State.fail] at hj
    exact h.waits_put hi hu (by simpa [State.fail, hu] using hj)

/-- The call that is registered for the target has its answer. -/
theorem handleRouteMsg_eq {target : Sha1} {table : List Tornet.Host} (hr : s.routeLookups target = some i)
    (hi : s.lookups[i]? = some l) :
    s.handleRouteMsg target table = { s.put i { l with table := some table } with
      routeLookups := Function.update s.routeLookups target none } := by
  have hset : s.lookups.modify i (fun l => { l with table := some table }) =
      s.lookups.set i { l with table := some table } := by
    apply List.ext_getElem?
    intro j
    by_cases hij : i = j
    · subst hij
      have hlt : i < s.lookups.length := (List.getElem?_eq_some_iff.mp hi).1
      obtain rfl : s.lookups[i] = l := (List.getElem?_eq_some_iff.mp hi).2
      simp [hlt]
    · simp [hij]
  simp only [handleRouteMsg, hr, hset, State.put]

theorem Sound.route (h : s.Sound) (target : Sha1) (table : List Tornet.Host) :
    (s.handleRouteMsg target table).Sound := by
  cases hr : s.routeLookups target with
  | none => simpa [handleRouteMsg, hr] using h
  | some i =>
    obtain ⟨l, hi, rfl, hw⟩ := h.waits target i hr
    rw [handleRouteMsg_eq hr hi]
    refine ⟨?_, ?_, asserted_put h (h.asserted l (List.mem_of_getElem? hi))⟩
    · intro j x hx hwx
      rcases get_put hi hx with ⟨-, rfl⟩ | ⟨hji, hx⟩
      · exact absurd hwx.2 (by simp)
      · have hreg := h.registered j x hx hwx
        have hne : x.target ≠ l.target := by
          intro heq
          rw [heq, hr] at hreg
          exact hji (Option.some.inj hreg).symm
        simpa [hne] using hreg
    · intro u j hj
      have hu : u ≠ l.target := by
        rintro rfl
        simp at hj
      exact h.waits_put hi hu (by simpa [hu] using hj)

/-- Calls that go on waiting are still registered. -/
theorem Sound.keeps (ht : t.Sound)
    (hstay : ∀ (j : Nat) (x : Lookup), s.lookups[j]? = some x → x.Waits →
      ∃ y : Lookup, t.lookups[j]? = some y ∧ y.target = x.target ∧ y.Waits) :
    ∀ (j : Nat) (x : Lookup), s.lookups[j]? = some x → x.Waits → t.routeLookups x.target = some j := by
  intro j x hx hw
  obtain ⟨y, hy, hyx, hwy⟩ := hstay j x hx hw
  rw [← hyx]
  exact ht.registered j y hy hwy

theorem stays_put (hi : s.lookups[i]? = some l) (hl : l.Waits → l'.target = l.target ∧ l'.Waits) :
    ∀ (j : Nat) (x : Lookup), s.lookups[j]? = some x → x.Waits →
      ∃ y : Lookup, (s.put i l').lookups[j]? = some y ∧ y.target = x.target ∧ y.Waits := by
  intro j x hx hw
  by_cases hji : j = i
  · subst hji
    obtain rfl : x = l := Option.some.inj (hx.symm.trans hi)
    exact ⟨l', put_get hi, hl hw⟩
  · exact ⟨x, (put_get_ne hji).trans hx, rfl, hw⟩

end State

/-- What a step does, with the test that lets it. -/
inductive Takes (s : State) : Event → State → Prop
  | called (target : Sha1) (n : UInt32) (limit : Option Sha1) (rankBehind : Bool) :
      Takes s (.call target n limit rankBehind) (s.findNodesNear target n limit rankBehind)
  | ranked {i : Nat} {l : Lookup} : s.lookups[i]? = some l → l.phase = .ranking → Takes s (.ranked i) (s.register i l)
  | sent {i : Nat} {l : Lookup} : s.lookups[i]? = some l → l.phase = .sending →
      Takes s (.sent i) (s.put i { l with phase := .waiting })
  | thrown {i : Nat} {l : Lookup} : s.lookups[i]? = some l → Takes s (.throws i) (s.fail i l)
  | routed (target : Sha1) (table : List Tornet.Host) : Takes s (.route target table) (s.handleRouteMsg target table)
  | returned {i : Nat} {l : Lookup} : s.lookups[i]? = some l → l.table ≠ none → s.routeLookups l.target = none →
      Takes s (.resume i) (s.put i { l with phase := .returned })
  | aborted {i : Nat} {l : Lookup} : s.lookups[i]? = some l → l.table ≠ none → s.routeLookups l.target ≠ none →
      Takes s (.resume i) (s.put i { l with phase := .aborted })
  | resent : Takes s .resend s

theorem takes_of_step {s t : State} {e : Event} (hs : step s e = some t) : Takes s e t := by
  cases e with
  | call target n limit rankBehind =>
    cases hs
    exact .called target n limit rankBehind
  | ranked i =>
    obtain ⟨l, hi, hl⟩ := Option.bind_eq_some_iff.mp hs
    split_ifs at hl with hp
    cases hl
    exact .ranked hi hp
  | sent i =>
    obtain ⟨l, hi, hl⟩ := Option.bind_eq_some_iff.mp hs
    split_ifs at hl with hp
    cases hl
    exact .sent hi hp
  | throws i =>
    obtain ⟨l, hi, hl⟩ := Option.bind_eq_some_iff.mp hs
    split_ifs at hl
    cases hl
    exact .thrown hi
  | route target table =>
    cases hs
    exact .routed target table
  | resume i =>
    obtain ⟨l, hi, hl⟩ := Option.bind_eq_some_iff.mp hs
    split_ifs at hl with hp hfree
    · cases hl
      exact .returned hi hp.2 hfree
    · cases hl
      exact .aborted hi hp.2 hfree
  | resend =>
    cases hs
    exact .resent

/-- A step that meets the condition keeps the registrations in order. -/
theorem sound_step {s t : State} {e : Event} (h : s.Sound) (hc : clear s e) (hs : Takes s e t) : t.Sound := by
  cases hs with
  | called target n limit rankBehind =>
    have hpush := h.push (l := ⟨target, n, limit, .ranking, none⟩) rfl
    rw [State.findNodesNear]
    split_ifs with hb
    · exact hpush
    · exact hpush.register (by simp) (hc (by simpa using hb))
  | @ranked i l hi _ => exact h.register hi (hc l hi)
  | sent hi hp => exact h.put hi rfl (by simp [Lookup.Waits, hp]) (by simp)
  | @thrown i l hi => exact h.fail hi (hc l hi)
  | routed target table => exact h.route target table
  | returned hi htable _ => exact h.put hi rfl (by simp [Lookup.Waits, htable]) (by simp)
  | @aborted i l hi _ hfree => exact absurd (hc l hi) hfree
  | resent => exact h

theorem kept_step {s t : State} {e : Event} (h : s.Sound) (hc : clear s e) (hs : Takes s e t) : Kept s e t := by
  have ht := sound_step h hc hs
  cases hs with
  | called target n limit rankBehind =>
    refine ht.keeps fun j x hx hw => ⟨x, ?_, rfl, hw⟩
    have hlt : j < s.lookups.length := (List.getElem?_eq_some_iff.mp hx).1
    have hpush : (s.lookups ++ [(⟨target, n, limit, .ranking, none⟩ : Lookup)])[j]? = some x := by
      rw [List.getElem?_append_left hlt, hx]
    rw [State.findNodesNear]
    split_ifs
    · exact hpush
    · exact (State.put_get_ne (Nat.ne_of_lt hlt)).trans hpush
  | ranked hi hp => exact ht.keeps (State.stays_put hi fun hw => absurd hw.1 (by simp [hp]))
  | sent hi _ => exact ht.keeps (State.stays_put hi fun hw => ⟨rfl, .inr rfl, hw.2⟩)
  | @thrown i l hi =>
    intro target hne
    by_cases htarget : target = l.target
    · subst htarget
      rcases hc l hi with hw | hfree
      · exact h.registered i l hi hw
      · simp [State.fail, hfree] at hne
    · simp [State.fail, htarget] at hne
  | routed target table =>
    rintro ⟨i, l, hi, rfl, hw⟩
    refine ⟨i, l, hi, rfl, hw, ?_⟩
    rw [State.handleRouteMsg_eq (h.registered i l hi hw) hi]
    exact State.put_get hi
  | returned hi htable _ => exact ht.keeps (State.stays_put hi fun hw => absurd hw.2 htable)
  | aborted hi htable _ => exact ht.keeps (State.stays_put hi fun hw => absurd hw.2 htable)
  | resent => exact h.registered

/-- Where a call that does not wait finds a registration for its target, it is another one's. -/
theorem State.Sound.other {s : State} {i : Nat} {l : Lookup} (h : s.Sound) (hi : s.lookups[i]? = some l) (hnot : ¬ l.Waits)
    (hreg : s.routeLookups l.target ≠ none) : ∃ k, k ≠ i ∧ s.routeLookups l.target = some k := by
  obtain ⟨k, hk⟩ := Option.ne_none_iff_exists'.mp hreg
  obtain ⟨x, hx, -, hw⟩ := h.waits l.target k hk
  refine ⟨k, ?_, hk⟩
  rintro rfl
  obtain rfl : x = l := Option.some.inj (hx.symm.trans hi)
  exact hnot hw

/-- A registration that is overwritten or erased leaves a call that waits without one. -/
theorem clear_of_sound {s t : State} {e : Event} (h : s.Sound) (hs : Takes s e t) (ht : t.Sound) : clear s e := by
  -- a call that waits, with another number, and lost its registration for `u`
  have hlost : ∀ {i k : Nat} {u : Sha1} {l' : Lookup} {r : Sha1 → Option Nat}, k ≠ i →
      s.routeLookups u = some k → r u ≠ some k → ¬ State.Sound ⟨r, (s.put i l').lookups⟩ := by
    intro i k u l' r hki hk hr hsound
    obtain ⟨x, hx, rfl, hw⟩ := h.waits u k hk
    exact hr (hsound.registered k x ((State.put_get_ne hki).trans hx) hw)
  cases hs with
  | called target n limit rankBehind =>
    intro hb
    subst hb
    by_contra hfree
    obtain ⟨k, hk⟩ := Option.ne_none_iff_exists'.mp hfree
    obtain ⟨x, hx, rfl, hw⟩ := h.waits target k hk
    have hlt : k < s.lookups.length := (List.getElem?_eq_some_iff.mp hx).1
    have hreg := ht.registered k x (by
      refine (State.put_get_ne (Nat.ne_of_lt hlt)).trans ?_
      rw [List.getElem?_append_left hlt, hx]) hw
    simp [State.findNodesNear, State.register] at hreg
    omega
  | @ranked i l hi hp =>
    intro l' hl'
    obtain rfl : l = l' := Option.some.inj (hi.symm.trans hl')
    by_contra hfree
    obtain ⟨k, hki, hk⟩ := h.other hi (fun hw => absurd hw.1 (by simp [hp])) hfree
    exact hlost hki hk (by simpa using Ne.symm hki) ht
  | sent hi hp => trivial
  | @thrown i l hi =>
    intro l' hl'
    obtain rfl : l = l' := Option.some.inj (hi.symm.trans hl')
    by_contra hnot
    rw [not_or] at hnot
    obtain ⟨k, hki, hk⟩ := h.other hi hnot.1 hnot.2
    exact hlost hki hk (by simp) ht
  | routed target table => trivial
  | @returned i l hi _ hfree =>
    intro l' hl'
    obtain rfl : l = l' := Option.some.inj (hi.symm.trans hl')
    exact hfree
  | aborted hi _ _ => exact absurd rfl (ht.asserted _ (List.mem_of_getElem? (State.put_get hi)))
  | resent => trivial

/-- Along a run every route message completes a call that waits for its target, every failing call takes
away only its own registration, every call that waits stays registered and the assertion holds, if
and only if calls for one target stay out of each other's way. -/
theorem lookups_iff_clear {es : List Event} {s : State} (hr : run step {} es = some s) :
    Always step (fun s e t => Kept s e t ∧ t.Sound) {} es ↔ Guarded step clear {} es := by
  apply always_iff_guarded State.Sound ?_ ?_ ?_ hr
  · intro s e t h hc hs
    have ht := sound_step h hc (takes_of_step hs)
    exact ⟨⟨kept_step h hc (takes_of_step hs), ht⟩, ht⟩
  · exact fun s e t h hk hs => clear_of_sound h (takes_of_step hs) hk.2
  · exact ⟨by simp, by simp, by simp⟩

/-- Two calls for one target, the second after the first has returned. -/
def oneByOne : List Event :=
  [.call 5 3 none false, .sent 0, .route 5 [], .resume 0, .call 5 3 none false, .sent 1, .throws 1]

/-- Two calls for one target, of which the first one times out. -/
def overlapping : List Event :=
  [.call 5 3 none false, .sent 0, .call 5 3 none false, .sent 1, .throws 0]

theorem lookups_oneByOne : Always step (fun s e t => Kept s e t ∧ t.Sound) {} oneByOne := by
  have hr : run step {} oneByOne = some ((run step {} oneByOne).get rfl) := rfl
  exact (lookups_iff_clear hr).mpr (by decide)

/-- The second call still waits, and its registration is gone. -/
theorem lost_registration : ∃ s : State, run step {} overlapping = some s ∧
    s.lookups = [⟨5, 3, none, .failed, none⟩, ⟨5, 3, none, .waiting, none⟩] ∧ s.routeLookups 5 = none ∧
      ¬ s.Sound := by
  refine ⟨_, rfl, rfl, rfl, fun h => ?_⟩
  have hreg := h.registered 1 ⟨5, 3, none, .waiting, none⟩ rfl (by decide)
  cases hreg

end Tornet.Connection.Lookups
