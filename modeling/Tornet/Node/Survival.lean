import Tornet.Connection.Authentication
import Tornet.Node.Serving

/-! What a handler that throws does to the `process_queue` fiber and to the packets that wait. -/
namespace Tornet.Node
open Library Runs

namespace Queue
variable {P : Type} {q q' : Queue P} {e : Event P}

/-- `_processing` is true only while there is a fiber. -/
def Alive (q : Queue P) : Prop := q.processing = true → q.fiber ≠ none

def Live (q : Queue P) : Prop := q.processing = true ↔ q.fiber ≠ none

theorem live_init (priority : Endpoint → P) : Live (init priority) := by
  simp [Live, init]

variable [LT P] [DecidableLT P]

/-- The fiber alone gets all packets of `c` handled. -/
def GetsServed (q : Queue P) (c : Endpoint) : Prop :=
  ∃ es q', (∀ e ∈ es, Event.ofFiber e = true) ∧ run step q es = some q' ∧ q'.inQueue c = []

/-- What a step owes packet processing: a fiber stands behind `_processing`, a packet whose handler
threw is gone, and the packets of the other connections are still handled. -/
def Survived (q : Queue P) (e : Event P) (q' : Queue P) : Prop :=
  Alive q' ∧ (e = .thrown → ∀ c, q.fiber = some (.serving c) →
    q'.inQueue c = (q.inQueue c).tail ∧ ∀ d, d ≠ c → q'.inQueue d ≠ [] → GetsServed q' d)

/-! ### Exceptions -/

private theorem handlePacket_live (h : Live q) (b : Bytes) (ep : Endpoint) : Live (q.handlePacket b ep) := by
  unfold handlePacket processConnection
  split_ifs with hlen hp
  · exact h
  · exact ⟨fun _ => h.mp hp, fun _ => rfl⟩
  · exact ⟨fun _ => by simp, fun _ => rfl⟩

private theorem finish_live (h : Live q) {c : Endpoint} (hf : q.fiber = some (.serving c)) (hq : q.finish c = some q') :
    Live q' := by
  have hp : q.processing = true := h.mpr (by simp [hf])
  unfold finish at hq
  simp only at hq
  split at hq
  · cases hq
  · split_ifs at hq <;> obtain rfl := Option.some.inj hq <;> exact ⟨fun _ => by simp, fun _ => hp⟩

/-- Every event but an exception keeps the flag and the fiber together. -/
theorem step_live (h : Live q) (he : e ≠ .thrown) (hs : step q e = some q') : Live q' := by
  cases e with
  | arrive ep b =>
    obtain rfl := Option.some.inj hs
    exact handlePacket_live h b ep
  | iterate =>
    simp only [step] at hs
    split_ifs at hs with hready
    have hp : q.processing = true := h.mpr (by simp [hready])
    split at hs
    · obtain rfl := Option.some.inj hs
      exact ⟨fun h => (by cases h), fun hf => absurd rfl hf⟩
    · split_ifs at hs
      obtain rfl := Option.some.inj hs
      exact ⟨fun _ => by simp, fun _ => hp⟩
  | handled =>
    simp only [step] at hs
    split at hs
    · rename_i c hf
      exact finish_live h hf hs
    · cases hs
  | thrown => exact absurd rfl he
  | setPriority c p =>
    obtain rfl := Option.some.inj hs
    exact h

/-- After an exception the flag stands without a fiber. -/
theorem thrown_dead (h : Live q) (hs : step q .thrown = some q') : ¬ Alive q' := by
  simp only [step] at hs
  split at hs
  · rename_i c hf
    obtain rfl := Option.some.inj hs
    have hp : q.processing = true := h.mpr (by simp [hf])
    exact fun ha => ha hp rfl
  · cases hs

/-- Processing survives a run if and only if no handler throws in it. -/
theorem survives_iff (priority : Endpoint → P) (es : List (Event P)) (q : Queue P)
    (hr : run step (init priority) es = some q) :
    Always step Survived (init priority) es ↔ ∀ e ∈ es, e ≠ .thrown := by
  refine always_iff Live ?_ ?_ (live_init priority) hr
  · intro q e q' h he hs
    have hlive := step_live h he hs
    exact ⟨⟨hlive.mp, fun ht => absurd ht he⟩, hlive⟩
  · rintro q e q' h ⟨halive, -⟩ hs rfl
    exact thrown_dead h hs halive

private theorem alive_of_always {u : Queue P} {es : List (Event P)} (h : Always step Survived q es) (hq : Alive q)
    (hr : run step q es = some u) : Alive u := by
  induction es generalizing q with
  | nil => exact Option.some.inj hr ▸ hq
  | cons e es ih =>
    obtain ⟨t, ht, hu⟩ := run_cons hr
    exact ih (h t ht).2 (h t ht).1.1 hu

/-- Two datagrams, the second while the first is handled. -/
theorem survives_iff_two : Always step Survived (init fun _ : Endpoint => (0 : Int))
    [.arrive {} [1], .iterate, .arrive {} [2], .handled, .iterate, .handled, .iterate] := by
  have hrun : (run step (init fun _ : Endpoint => (0 : Int))
      [.arrive {} [1], .iterate, .arrive {} [2], .handled, .iterate, .handled, .iterate]).isSome := by
    decide +kernel
  obtain ⟨q, hq⟩ := Option.isSome_iff_exists.mp hrun
  exact (survives_iff _ _ q hq).mpr (by simp)

open Connection in
def shortAuth : Bytes := xorFrame sharedKey 1 [1, 2, 3, 4]

def otherEp : Endpoint := { ip := 7, port := 7 }

/-- The key exchange, the short message, and a datagram from another endpoint. -/
def starvingRun : List (Event Int) :=
  [.arrive Connection.peerEp Connection.peerDh, .iterate, .handled, .iterate,
    .arrive Connection.peerEp shortAuth, .iterate, .thrown, .arrive otherEp [1]]

open Connection in
/-- `handle_auth_msg` throws on the short message; the fiber is gone for good, the message still
waits, and so does the other datagram. -/
theorem thrown_starves :
    (∃ c, run (Connection.step xorCrypto 2) (.init peerEp ⟨0, []⟩) [.packet peerDh { fresh := ownKey }] = some c ∧
      (Connection.handlePacket xorCrypto 2 shortAuth c).1 = .error .exception) ∧
    ∃ q, run step (init fun _ => 0) starvingRun = some q ∧ q.processing = true ∧ q.fiber = none ∧
      q.inQueue peerEp = [shortAuth] ∧ q.inQueue otherEp = [[1]] ∧
      ¬ Always step Survived (init fun _ => 0) starvingRun := by
  constructor
  · have hrun : ∃ c, c ∈ run (Connection.step xorCrypto 2) (.init peerEp ⟨0, []⟩)
        [.packet peerDh { fresh := ownKey }] ∧
        (Connection.handlePacket xorCrypto 2 shortAuth).stop c = some .exception := by decide +kernel
    obtain ⟨c, hc, hstop⟩ := hrun
    exact ⟨c, hc, Eff.eq_error_of_stop hstop⟩
  · have hrun : ∃ q, q ∈ run step (init fun _ => 0) starvingRun ∧ q.processing = true ∧ q.fiber = none ∧
        q.inQueue peerEp = [shortAuth] ∧ q.inQueue otherEp = [[1]] := by decide +kernel
    obtain ⟨q, hq, hp, hf, hbad, hother⟩ := hrun
    refine ⟨q, hq, hp, hf, hbad, hother, fun h => ?_⟩
    exact alive_of_always h (by simp [Alive, init]) hq hp hf

end Queue
end Tornet.Node
