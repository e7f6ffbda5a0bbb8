import Tornet.Library.Waiting
import Tornet.Node.Queue

/-! What the queue of connections owes its datagrams: the fiber serves connections with packets
only, each waits once, and none with packets is forgotten, as long as no handler is overtaken. -/
namespace Tornet.Node
open Library Runs

namespace Queue
variable {P : Type} {q q' : Queue P} {c : Endpoint}

/-- The queue as the fiber and the read loop rely on it. -/
structure Orderly (q : Queue P) : Prop where
  call : q.fiber = some .ready → ∀ c, q.processQueue.head? = some c → q.inQueue c ≠ []
  nodup : q.processQueue.Nodup
  queued : ∀ c, q.inQueue c ≠ [] → c ∈ q.processQueue

/-- The invariant behind it; the connection being served waits too. -/
structure Served (q : Queue P) : Prop where
  waits : Waits q.processQueue q.inQueue
  serving : ∀ c, q.fiber = some (.serving c) → c ∈ q.processQueue

theorem Served.orderly (h : Served q) : Orderly q where
  call _ c hc := (h.waits.mem_iff c).mp (List.mem_of_mem_head? hc)
  nodup := h.waits.nodup
  queued c hc := (h.waits.mem_iff c).mpr hc

/-- A handler is overtaken when it returns with the last packet of its connection while another
connection has come to the front. -/
def Kept (q : Queue P) : Event P → Prop
  | .handled => ∀ c, q.fiber = some (.serving c) → q.processQueue.head? = some c ∨ 2 ≤ (q.inQueue c).length
  | .arrive _ _ | .iterate | .thrown | .setPriority _ _ => True

theorem served_init (priority : Endpoint → P) : Served (init priority) := by
  refine ⟨⟨List.nodup_nil, fun c => ?_⟩, fun c hc => by cases hc⟩
  simp [init]

variable [LT P] [DecidableLT P]

private theorem handlePacket_served (h : Served q) (b : Bytes) (ep : Endpoint) : Served (q.handlePacket b ep) := by
  have hin : (q.postPacket ep b).inQueue ep = q.inQueue ep ++ [b] := Function.update_self _ _ _
  unfold handlePacket processConnection
  by_cases hlen : 1 < ((q.postPacket ep b).inQueue ep).length
  · -- an earlier packet has put the connection in the queue
    rw [if_pos hlen]
    have hold : q.inQueue ep ≠ [] := by
      intro hnil
      simp [hin, hnil] at hlen
    exact ⟨h.waits.update (by simp [hold]), h.serving⟩
  · rw [if_neg hlen]
    have hold : q.inQueue ep = [] := by
      rw [hin, List.length_append, List.length_singleton] at hlen
      exact List.length_eq_zero_iff.mp (by omega)
    have hperm := Heap.pushHeap_perm (q.postPacket ep b).pqComparer q.processQueue ep
    refine ⟨h.waits.push hold (by simp) hperm, fun c hc => ?_⟩
    refine hperm.mem_iff.mpr (List.mem_cons_of_mem _ (h.serving c ?_))
    by_cases hp : (q.postPacket ep b).processing = true
    · exact (if_pos hp).symm.trans hc
    · cases (if_neg hp).symm.trans hc

private theorem finish_served (h : Served q) (hf : q.fiber = some (.serving c))
    (hk : q.processQueue.head? = some c ∨ 2 ≤ (q.inQueue c).length) (hq : q.finish c = some q') : Served q' := by
  have hc : q.inQueue c ≠ [] := (h.waits.mem_iff c).mp (h.serving c hf)
  have hwaits := h.waits
  unfold finish at hq
  simp only at hq
  split at hq
  · cases hq
  rename_i f rest hqueue
  rw [hqueue, List.head?_cons, Option.some.injEq] at hk
  by_cases hempty : Function.update q.inQueue c (q.inQueue c).tail f = []
  · -- the front has no packet left, so it is the one that was served
    rw [if_pos hempty] at hq
    obtain rfl : f = c := by
      by_contra hne
      rw [Function.update_of_ne hne] at hempty
      exact (hwaits.mem_iff f).mp (hqueue ▸ List.mem_cons_self) hempty
    obtain rfl := Option.some.inj hq
    rw [Function.update_self] at hempty
    rw [hqueue] at hwaits
    refine ⟨?_, fun d hd => by cases hd⟩
    simp only [hempty, hqueue]
    exact hwaits.pop (Heap.popHeap_perm _ f rest)
  · rw [if_neg hempty] at hq
    obtain rfl := Option.some.inj hq
    have hleft : (q.inQueue c).tail ≠ [] := by
      rcases hk with rfl | htwo
      · simpa using hempty
      · exact List.ne_nil_of_length_pos (by rw [List.length_tail]; omega)
    exact ⟨hwaits.update (by simp [hc, hleft]), fun d hd => by cases hd⟩

theorem step_served (h : Served q) {e : Event P} (hk : Kept q e) (hs : step q e = some q') : Served q' := by
  cases e with
  | arrive ep b =>
    obtain rfl := Option.some.inj hs
    exact handlePacket_served h b ep
  | iterate =>
    simp only [step] at hs
    split_ifs at hs with hready
    split at hs
    · obtain rfl := Option.some.inj hs
      exact ⟨h.waits, fun _ hd => by cases hd⟩
    · rename_i c rest hqueue
      split_ifs at hs
      obtain rfl := Option.some.inj hs
      refine ⟨h.waits, fun d hd => ?_⟩
      obtain rfl : c = d := by simpa using hd
      exact hqueue ▸ List.mem_cons_self
  | handled =>
    simp only [step] at hs
    split at hs
    · rename_i c hf
      exact finish_served h hf (hk c hf) hs
    · cases hs
  | thrown =>
    simp only [step] at hs
    split at hs
    · obtain rfl := Option.some.inj hs
      exact ⟨h.waits, fun _ hd => by cases hd⟩
    · cases hs
  | setPriority c p =>
    obtain rfl := Option.some.inj hs
    exact ⟨h.waits, h.serving⟩

/-- In every run in which no handler is overtaken, the fiber calls `process_next_message` on
connections with packets only, no connection waits twice and every one with packets waits. -/
theorem orderly_of_kept (priority : Endpoint → P) (es : List (Event P)) (q : Queue P)
    (hg : Guarded step Kept (init priority) es) (hr : run step (init priority) es = some q) : Orderly q :=
  (invariant_of_guarded Served (fun _ _ _ h hk hs => step_served h hk hs) (served_init priority) hg hr).orderly

instance (q : Queue P) : (e : Event P) → Decidable (Kept q e)
  | .handled =>
    match hf : q.fiber with
    | some (.serving c) =>
      decidable_of_iff (q.processQueue.head? = some c ∨ 2 ≤ (q.inQueue c).length)
        ⟨fun h d hd => by
          obtain rfl : c = d := by simpa [hf] using hd
          exact h, fun h => h c hf⟩
    | some .ready => isTrue fun _ h => nomatch hf.symm.trans h
    | none => isTrue fun _ h => nomatch hf.symm.trans h
  | .arrive _ _ | .iterate | .thrown | .setPriority _ _ => isTrue trivial

def epA : Endpoint := { ip := 1, port := 1 }

def epB : Endpoint := { ip := 2, port := 2 }

def priorities : Endpoint → Int := Function.update (fun _ => 5) epB 3

/-- The second connection comes to the front while the first is served, and the first has another
packet by then. -/
theorem orderly_of_kept_overlap : ∃ q, run step (init priorities)
    [.arrive epA [1], .iterate, .arrive epB [2], .arrive epA [3], .handled, .iterate, .handled] = some q ∧
      Orderly q := by
  have hrun : (run step (init priorities)
      [.arrive epA [1], .iterate, .arrive epB [2], .arrive epA [3], .handled, .iterate, .handled]).isSome := by
    decide +kernel
  obtain ⟨q, hq⟩ := Option.isSome_iff_exists.mp hrun
  exact ⟨q, hq, orderly_of_kept priorities _ q (by decide +kernel) hq⟩

/-- The handler of the first connection is overtaken: the connection stays in the queue without a
packet, and is at the front of the next iteration but one. -/
theorem overtaken : ∃ q, run step (init priorities)
    [.arrive epA [1], .iterate, .arrive epB [2], .handled, .iterate, .handled] = some q ∧
      q.fiber = some .ready ∧ q.processQueue.head? = some epA ∧ q.inQueue epA = [] ∧ ¬ Orderly q := by
  have hrun : ∃ q, q ∈ run step (init priorities)
      [.arrive epA [1], .iterate, .arrive epB [2], .handled, .iterate, .handled] ∧
      q.fiber = some .ready ∧ q.processQueue.head? = some epA ∧ q.inQueue epA = [] := by decide +kernel
  obtain ⟨q, hq, hready, hfront, hnone⟩ := hrun
  exact ⟨q, hq, hready, hfront, hnone, fun ho => ho.call hready epA hfront hnone⟩

end Queue
end Tornet.Node
