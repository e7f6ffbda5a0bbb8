import Mathlib.Order.Basic
import Tornet.Node.Serving

/-! Which connection `process_queue` serves next: the front of a heap whose comparison is that of
`kbucket::resort_buckets`, the other way round from what a heap with its greatest value in front needs. -/
namespace Tornet.Node
open Library Runs

namespace Queue
variable {P : Type} [LinearOrder P] {q q' : Queue P} {c d : Endpoint} {e : Event P}

theorem pqComparer_strictWeak (q : Queue P) : Heap.StrictWeak q.pqComparer where
  asymm a b h := by
    rw [pqComparer, decide_eq_true_eq] at h
    exact decide_eq_false (not_lt_of_gt h)
  trans a b c hab hbc := by
    rw [pqComparer, decide_eq_false_iff_not, not_lt] at hab hbc ⊢
    exact hab.trans hbc

def Fixed : Event P → Prop
  | .setPriority _ _ => False
  | .arrive _ _ | .iterate | .handled | .thrown => True

/-- Pushes and pops keep the order of the heap; the priorities are those of the start. -/
def HeapOrdered (priority : Endpoint → P) (q : Queue P) : Prop :=
  q.priority = priority ∧ Heap.Heaped q.pqComparer q.processQueue

theorem handlePacket_heapOrdered {priority : Endpoint → P} (h : HeapOrdered priority q) (b : Bytes) (ep : Endpoint) :
    HeapOrdered priority (q.handlePacket b ep) := by
  rw [handlePacket, processConnection]
  split_ifs
  · exact h
  · exact ⟨h.1, Heap.pushHeap_heaped q.pqComparer_strictWeak h.2 ep⟩
  · exact ⟨h.1, Heap.pushHeap_heaped q.pqComparer_strictWeak h.2 ep⟩

private theorem finish_heapOrdered {priority : Endpoint → P} (h : HeapOrdered priority q) (hq : q.finish c = some q') :
    HeapOrdered priority q' := by
  rw [finish] at hq
  simp only at hq
  split at hq
  · cases hq
  split_ifs at hq
  · obtain rfl := Option.some.inj hq
    exact ⟨h.1, Heap.popHeap_heaped q.pqComparer_strictWeak h.2⟩
  · obtain rfl := Option.some.inj hq
    exact h

theorem step_heapOrdered {priority : Endpoint → P} (h : HeapOrdered priority q) (he : Fixed e)
    (hs : step q e = some q') : HeapOrdered priority q' := by
  cases e with
  | arrive ep b =>
    obtain rfl := Option.some.inj hs
    exact handlePacket_heapOrdered h b ep
  | iterate =>
    simp only [step] at hs
    split_ifs at hs
    split at hs
    · obtain rfl := Option.some.inj hs
      exact h
    · split_ifs at hs
      obtain rfl := Option.some.inj hs
      exact h
  | handled =>
    simp only [step] at hs
    split at hs
    · exact finish_heapOrdered h hs
    · cases hs
  | thrown =>
    simp only [step] at hs
    split at hs
    · obtain rfl := Option.some.inj hs
      exact h
    · cases hs
  | setPriority c p => exact absurd he id

private theorem heapOrdered_of_run {priority : Endpoint → P} {es : List (Event P)} (hfixed : ∀ e ∈ es, Fixed e)
    (hr : run step (init priority) es = some q) : HeapOrdered priority q := by
  have hinit : HeapOrdered priority (init priority) := by
    refine ⟨rfl, fun j _ a b _ hb => ?_⟩
    rw [init, List.getElem?_nil] at hb
    cases hb
  have hguard : Guarded step (fun _ e => Fixed e) (init priority) es := guarded_of_forall fun e he _ => hfixed e he
  exact invariant_of_guarded (HeapOrdered priority) (fun _ _ _ h he hs => step_heapOrdered h he hs) hinit hguard hr

/-- The connection whose packet is handled in the next turn of the loop is at the front. -/
theorem head_of_iterate (hs : step q .iterate = some q') (hf : q'.fiber = some (.serving c)) :
    q.processQueue.head? = some c := by
  simp only [step] at hs
  split_ifs at hs
  split at hs
  · obtain rfl := Option.some.inj hs
    cases hf
  · rename_i f rest hqueue
    split_ifs at hs
    obtain rfl := Option.some.inj hs
    rw [hqueue]
    exact congrArg some (by simpa using hf)

/-- No connection in the queue has a lower priority than the one that is served next. -/
theorem next_lowest {priority : Endpoint → P} (h : HeapOrdered priority q) (hc : q.processQueue.head? = some c)
    (hd : d ∈ q.processQueue) : priority c ≤ priority d := by
  have hfront := h.2.front q.pqComparer_strictWeak hc hd
  rw [pqComparer, decide_eq_false_iff_not, not_lt, h.1] at hfront
  exact hfront

/-- In every run with fixed priorities, whatever is pushed and popped: the connection that is served next has the
highest priority of the queue if and only if all connections in the queue have the same priority. -/
theorem next_highest_iff (priority : Endpoint → P) (es : List (Event P)) (hfixed : ∀ e ∈ es, Fixed e) (q q' : Queue P)
    (hr : run step (init priority) es = some q) (hs : step q .iterate = some q') (c : Endpoint)
    (hc : q'.fiber = some (.serving c)) :
    (∀ d ∈ q.processQueue, priority d ≤ priority c) ↔
      ∀ d ∈ q.processQueue, ∀ d' ∈ q.processQueue, priority d = priority d' := by
  have hhead := head_of_iterate hs hc
  have hmem : c ∈ q.processQueue := List.mem_of_mem_head? hhead
  have hlow {d : Endpoint} (hd : d ∈ q.processQueue) : priority c ≤ priority d :=
    next_lowest (heapOrdered_of_run hfixed hr) hhead hd
  constructor
  · intro hhigh d hd d' hd'
    have heq : priority d = priority c := le_antisymm (hhigh d hd) (hlow hd)
    have heq' : priority d' = priority c := le_antisymm (hhigh d' hd') (hlow hd')
    rw [heq, heq']
  · intro hsame d hd
    exact (hsame d hd c hmem).le

instance : (e : Event P) → Decidable (Fixed e)
  | .setPriority _ _ => isFalse id
  | .arrive _ _ | .iterate | .handled | .thrown => isTrue trivial

def twoPackets : List (Event Int) := [.arrive epA [1], .arrive epB [2]]

theorem next_highest_iff_equal : ∃ q q' : Queue Int, run step (init fun _ => 5) twoPackets = some q ∧
    step q .iterate = some q' ∧ q'.fiber = some (.serving epA) ∧ q.processQueue.length = 2 ∧
    ∀ d ∈ q.processQueue, (fun _ => 5 : Endpoint → Int) d ≤ 5 := by
  have hrun : ∃ q, q ∈ run step (init fun _ => (5 : Int)) twoPackets ∧ q.processQueue.length = 2 ∧
      ∃ q', q' ∈ step q .iterate ∧ q'.fiber = some (.serving epA) := by decide +kernel
  obtain ⟨q, hq, hlen, q', hq', hf⟩ := hrun
  refine ⟨q, q', hq, hq', hf, hlen, ?_⟩
  exact (next_highest_iff (fun _ => 5) twoPackets (by decide) q q' hq hq' epA hf).mpr fun _ _ _ _ => rfl

/-- Of two connections that wait, the one with the lower priority is served first. -/
theorem lower_first : ¬ ∀ (priority : Endpoint → Int) (es : List (Event Int)) (q q' : Queue Int) (c : Endpoint),
    (∀ e ∈ es, Fixed e) → run step (init priority) es = some q → step q .iterate = some q' →
    q'.fiber = some (.serving c) → ∀ d ∈ q.processQueue, priority d ≤ priority c := by
  intro h
  have hrun : ∃ q, q ∈ run step (init priorities) twoPackets ∧ epA ∈ q.processQueue ∧
      ∃ q', q' ∈ step q .iterate ∧ q'.fiber = some (.serving epB) := by decide +kernel
  obtain ⟨q, hq, hmem, q', hq', hf⟩ := hrun
  have := h priorities twoPackets q q' epB (by decide) hq hq' hf epA hmem
  exact absurd this (by decide +kernel)

end Queue
end Tornet.Node
