import Mathlib.Data.List.Perm.Basic
import Mathlib.Logic.Function.Basic

/-! Keys that wait for service: a queue without order and the work of each key. -/
namespace Tornet.Library

/-- The keys that wait are those with work, each once. -/
structure Waits {κ β : Type} (queue : List κ) (work : κ → List β) : Prop where
  nodup : queue.Nodup
  mem_iff : ∀ c, c ∈ queue ↔ work c ≠ []

variable {κ β : Type} [DecidableEq κ] {queue queue' : List κ} {work : κ → List β} {c : κ}

/-- Work for the key `c` changes, and `c` waits as before. -/
theorem Waits.update (h : Waits queue work) {v : List β} (hv : work c ≠ [] ↔ v ≠ []) :
    Waits queue (Function.update work c v) := by
  refine ⟨h.nodup, fun d => (h.mem_iff d).trans ?_⟩
  rcases eq_or_ne d c with rfl | hne
  · rw [Function.update_self]
    exact hv
  · rw [Function.update_of_ne hne]

/-- A key without work gets some and joins. -/
theorem Waits.push (h : Waits queue work) (hc : work c = []) {v : List β} (hv : v ≠ [])
    (hperm : queue'.Perm (c :: queue)) : Waits queue' (Function.update work c v) := by
  have hout : c ∉ queue := fun hmem => (h.mem_iff c).mp hmem hc
  refine ⟨hperm.nodup_iff.mpr (List.nodup_cons.mpr ⟨hout, h.nodup⟩), fun d => ?_⟩
  rw [hperm.mem_iff, List.mem_cons]
  rcases eq_or_ne d c with rfl | hne
  · simp [hv]
  · rw [Function.update_of_ne hne, ← h.mem_iff d]
    exact ⟨fun hd => hd.resolve_left hne, .inr⟩

/-- A key whose work is done leaves. -/
theorem Waits.pop (h : Waits (c :: queue) work) (hperm : queue'.Perm queue) :
    Waits queue' (Function.update work c []) := by
  obtain ⟨hout, hnodup⟩ := List.nodup_cons.mp h.nodup
  refine ⟨hperm.nodup_iff.mpr hnodup, fun d => hperm.mem_iff.trans ?_⟩
  rcases eq_or_ne d c with rfl | hne
  · simp [hout]
  · rw [Function.update_of_ne hne, ← h.mem_iff d, List.mem_cons]
    exact ⟨.inr, fun hd => hd.resolve_left hne⟩

end Tornet.Library
