import Mathlib.Algebra.Ring.Nat
import Mathlib.Data.List.Perm.Subperm
import Mathlib.Data.List.Sort

/-! Lists by a key: the smallest elements in order, and when a list that is given group by group
starts with the same elements as another one. -/
namespace Tornet.Library.Nearest

variable {α : Type*} {key : α → Nat}

/-- The elements in the order of their keys. -/
def byKey (key : α → Nat) (l : List α) : List α := l.insertionSort fun a b => key a ≤ key b

/-- The `n` elements with the smallest keys, in order. -/
def nearest (key : α → Nat) (n : Nat) (l : List α) : List α := (byKey key l).take n

/-- The list has the first elements of a set by their places, as many as are asked for if there are so many. -/
structure Firsts {α π : Type*} [LinearOrder π] (place : α → π) (S : Set α) (n : Nat) (l : List α) : Prop where
  sorted : l.Pairwise fun a b => place a < place b
  subset : ∀ a ∈ l, a ∈ S
  length : l.length ≤ n
  rest : ∀ a ∈ S, a ∉ l → l.length = n ∧ ∀ b ∈ l, place b < place a

namespace Firsts
variable {α π : Type*} [LinearOrder π] {place : α → π} {S : Set α} {l : List α}

/-- They are the beginning of a list of the whole set in its order. -/
theorem take {all : List α} (hall : ∀ a, a ∈ all ↔ a ∈ S) (hsorted : all.Pairwise fun a b => place a < place b)
    (n : Nat) : Firsts place S n (all.take n) where
  sorted := hsorted.sublist (List.take_sublist n all)
  subset a ha := (hall a).mp (List.mem_of_mem_take ha)
  length := List.length_take_le n all
  rest a ha hnot := by
    have hmem : a ∈ all.take n ++ all.drop n := by
      rw [List.take_append_drop]
      exact (hall a).mpr ha
    have hdrop : a ∈ all.drop n := (List.mem_append.mp hmem).resolve_left hnot
    constructor
    · have hpos := List.length_pos_of_mem hdrop
      rw [List.length_drop] at hpos
      rw [List.length_take]
      omega
    · intro b hb
      rw [← List.take_append_drop n all] at hsorted
      exact (List.pairwise_append.mp hsorted).2.2 b hb a hdrop

/-- There is only one such list. -/
theorem unique {n : Nat} {l' : List α} (h : Firsts place S n l) (h' : Firsts place S n l') : l = l' := by
  have hnodup {m : List α} (hm : m.Pairwise fun a b => place a < place b) : m.Nodup :=
    hm.imp fun hlt heq => hlt.ne (congrArg place heq)
  have hsub {l l' : List α} (h : Firsts place S n l) (h' : Firsts place S n l') : l ⊆ l' := by
    intro a ha
    by_contra hnot
    obtain ⟨hfull, hbefore⟩ := h'.rest a (h.subset a ha) hnot
    have hother : ¬ l' ⊆ l := by
      intro hle
      have hperm := (List.Nodup.subperm (hnodup h'.sorted) hle).perm_of_length_le (hfull ▸ h.length)
      exact hnot (hperm.symm.subset ha)
    obtain ⟨b, hb, hbl⟩ := Set.not_subset.mp hother
    exact lt_asymm (hbefore b hb) ((h.rest b (h'.subset b hb) hbl).2 a ha)
  refine List.Perm.eq_of_pairwise (fun a b _ _ hab hba => (lt_asymm hab hba).elim) h.sorted h'.sorted ?_
  exact (List.perm_ext_iff_of_nodup (hnodup h.sorted) (hnodup h'.sorted)).mpr
    fun a => ⟨fun ha => hsub h h' ha, fun ha => hsub h' h ha⟩

end Firsts

end Tornet.Library.Nearest
