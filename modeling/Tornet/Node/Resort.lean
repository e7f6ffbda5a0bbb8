import Mathlib.Data.Fintype.Basic
import Mathlib.Data.List.FinRange
import Tornet.Node.Kbucket

/-! `kbucket::resort_buckets`: each turn of the loop sorts a bucket, and the iterator stays at the first one. -/
namespace Tornet.Node

/-- `std::sort` by priority, the better connection first. Among equals any order may come out. -/
structure StdSort {P : Type} [LinearOrder P] (priority : ConnId → P) where
  sort : List ConnId → List ConnId
  perm : ∀ l, (sort l).Perm l
  sorted : ∀ l, (sort l).Pairwise fun a b => priority b ≤ priority a

namespace Kbucket
variable {P : Type} [LinearOrder P] {priority : ConnId → P}

/-- The body of the loop. -/
def sortBucket (S : StdSort priority) (k : Kbucket) (b : Fin 161) : Kbucket :=
  { k with buckets := Function.update k.buckets b (S.sort (k.buckets b)) }

/-- The loop while the iterator is not at the end, which is behind bucket 160. -/
def resortLoop (S : StdSort priority) : Nat → Nat → Kbucket → Option Kbucket
  | 0, _, _ => none
  | fuel + 1, b, k =>
    -- there is no `++b`
    if h : b < 161 then resortLoop S fuel b (k.sortBucket S ⟨b, h⟩) else some k

/-- `kbucket::resort_buckets`; `none` where the turns do not suffice. -/
def resortBuckets (S : StdSort priority) (fuel : Nat) (k : Kbucket) : Option Kbucket := resortLoop S fuel 0 k

/-- Every bucket has the connections it had, sorted by decreasing priority. -/
structure Resorted (priority : ConnId → P) (k k' : Kbucket) : Prop where
  perm : ∀ b, (k'.buckets b).Perm (k.buckets b)
  sorted : ∀ b, (k'.buckets b).Pairwise fun c d => priority d ≤ priority c

def Resorts (S : StdSort priority) (k : Kbucket) : Prop :=
  ∃ fuel k', resortBuckets S fuel k = some k' ∧ Resorted priority k k'

variable (S : StdSort priority) (k : Kbucket)

theorem sortBucket_self (b : Fin 161) : (k.sortBucket S b).buckets b = S.sort (k.buckets b) := Function.update_self ..

private theorem sortBucket_of_ne {b c : Fin 161} (h : c ≠ b) : (k.sortBucket S b).buckets c = k.buckets c :=
  Function.update_of_ne h _ _

/-- A turn moves no connection to another bucket. -/
theorem sortBucket_perm (b c : Fin 161) : ((k.sortBucket S b).buckets c).Perm (k.buckets c) := by
  by_cases h : c = b
  · rw [h, sortBucket_self]
    exact S.perm _
  · rw [sortBucket_of_ne S k h]

/-- The turns of the loop for the buckets of a list, one after the other. -/
theorem foldl_sortBucket (bs : List (Fin 161)) (b : Fin 161) :
    ((bs.foldl (sortBucket S) k).buckets b).Perm (k.buckets b) ∧
      (b ∈ bs → ((bs.foldl (sortBucket S) k).buckets b).Pairwise fun c d => priority d ≤ priority c) := by
  induction bs using List.reverseRecOn with
  | nil => exact ⟨.refl _, fun h => absurd h List.not_mem_nil⟩
  | append_singleton bs c ih =>
    rw [List.foldl_append, List.foldl_cons, List.foldl_nil]
    refine ⟨(sortBucket_perm S _ c b).trans ih.1, fun hb => ?_⟩
    by_cases h : b = c
    · rw [h, sortBucket_self]
      exact S.sorted _
    · rw [sortBucket_of_ne S _ h]
      apply ih.2
      rcases List.mem_append.mp hb with hb | hb
      · exact hb
      · exact absurd (List.mem_singleton.mp hb) h

/-- What the loop is for: a turn for each bucket resorts them all. -/
theorem foldl_sortBucket_resorted : Resorted priority k ((List.finRange 161).foldl (sortBucket S) k) :=
  ⟨fun b => (foldl_sortBucket S k _ b).1, fun b => (foldl_sortBucket S k _ b).2 (List.mem_finRange b)⟩

/-- What it does: the turns are all for the bucket at the iterator, and there is always another one. -/
theorem resortLoop_none {b : Nat} (hb : b < 161) (fuel : Nat) : resortLoop S fuel b k = none := by
  induction fuel generalizing k with
  | zero => rfl
  | succ fuel ih =>
    rw [resortLoop, dif_pos hb]
    exact ih _

/-- Whatever the buckets and the priorities are, `resort_buckets` does not end. -/
theorem never_resorts : ¬ Resorts S k := by
  rintro ⟨fuel, k', h, -⟩
  rw [resortBuckets, resortLoop_none S k (by decide)] at h
  cases h

def sortById : StdSort fun c : ConnId => c where
  sort l := l.insertionSort (· ≥ ·)
  perm l := l.perm_insertionSort _
  sorted l := l.pairwise_insertionSort _

/-- Not even with no connection in any bucket. -/
theorem empty_unsorted : ¬ ∀ (priority : ConnId → Nat) (S : StdSort priority) (k : Kbucket), Resorts S k := by
  intro h
  obtain ⟨fuel, k', hloop, -⟩ := h _ sortById (init 0 0)
  rw [resortBuckets, resortLoop_none _ _ (by decide)] at hloop
  cases hloop

end Kbucket
end Tornet.Node
