import Mathlib.Data.List.Pairwise
import Mathlib.Data.Set.Card
import Mathlib.Order.Interval.Finset.Nat
import Mathlib.Tactic.Common

/-! Ascending lists of disjoint closed intervals of natural numbers, as a
representation of finite sets. -/
namespace Tornet.Library.Intervals

/-- A point lies in one of the intervals. -/
def Covers (l : List (Nat × Nat)) (x : Nat) : Prop := ∃ r ∈ l, r.1 ≤ x ∧ x ≤ r.2

/-- Nonempty intervals in increasing order without overlap. -/
def Ascending (l : List (Nat × Nat)) : Prop :=
  (∀ r ∈ l, r.1 ≤ r.2) ∧ l.Pairwise fun r s => r.2 < s.1

/-- Take one point out; an inner point splits its interval. -/
def remove (x : Nat) : List (Nat × Nat) → List (Nat × Nat)
  | [] => []
  | (f, s) :: rest =>
    if f ≤ x ∧ x ≤ s then
      if f = x ∧ s = x then rest
      else if f = x then (f + 1, s) :: rest
      else if s = x then (f, s - 1) :: rest
      else (f, x - 1) :: (x + 1, s) :: rest
    else if x < f then (f, s) :: rest
    else (f, s) :: remove x rest

@[simp] theorem covers_nil (x : Nat) : ¬ Covers [] x := by simp [Covers]

@[simp] theorem covers_cons (r : Nat × Nat) (l : List (Nat × Nat)) (x : Nat) :
    Covers (r :: l) x ↔ (r.1 ≤ x ∧ x ≤ r.2) ∨ Covers l x := by
  simp [Covers]

@[simp] theorem covers_append (l m : List (Nat × Nat)) (x : Nat) :
    Covers (l ++ m) x ↔ Covers l x ∨ Covers m x := by
  simp [Covers, or_and_right, exists_or]

theorem ascending_cons {r : Nat × Nat} {l : List (Nat × Nat)} :
    Ascending (r :: l) ↔ r.1 ≤ r.2 ∧ (∀ s ∈ l, r.2 < s.1) ∧ Ascending l := by
  simp only [Ascending, List.forall_mem_cons, List.pairwise_cons]
  tauto

/-- Everything behind the head of an ascending list lies above the head. -/
theorem lt_of_covers_tail {r : Nat × Nat} {l : List (Nat × Nat)} (h : Ascending (r :: l))
    {x : Nat} (hx : Covers l x) : r.2 < x := by
  obtain ⟨s, hs, hsx, _⟩ := hx
  have := (ascending_cons.mp h).2.1 s hs
  omega

/-- An interval list covers nothing only if it is empty. -/
theorem eq_nil_of_covers_none {l : List (Nat × Nat)} (h : Ascending l) (hc : ∀ x, ¬ Covers l x) :
    l = [] := by
  cases l with
  | nil => rfl
  | cons r l =>
    have hr := (ascending_cons.mp h).1
    exact absurd ((covers_cons r l r.1).mpr (.inl ⟨Nat.le_refl _, hr⟩)) (hc r.1)

/-- There are no more intervals than points. -/
theorem length_le_of_covers {l : List (Nat × Nat)} (h : Ascending l) {lo hi : Nat}
    (hc : ∀ x, Covers l x → lo ≤ x ∧ x < hi) : l.length ≤ hi - lo := by
  induction l generalizing lo with
  | nil => exact Nat.zero_le _
  | cons r l ih =>
    obtain ⟨hr, _, hl⟩ := ascending_cons.mp h
    have hhead := hc r.2 ((covers_cons r l r.2).mpr (.inl ⟨hr, Nat.le_refl _⟩))
    have ih : l.length ≤ hi - (r.2 + 1) := ih hl fun x hx =>
      ⟨lt_of_covers_tail h hx, (hc x ((covers_cons r l x).mpr (.inr hx))).2⟩
    rw [List.length_cons]
    omega

theorem covers_remove {l : List (Nat × Nat)} (h : Ascending l) (x y : Nat) :
    Covers (remove x l) y ↔ Covers l y ∧ y ≠ x := by
  induction l with
  | nil => simp [remove]
  | cons r rest ih =>
    obtain ⟨f, s⟩ := r
    have htail : Covers rest y → s < y := lt_of_covers_tail h
    obtain ⟨hfs, _, hrest⟩ := ascending_cons.mp h
    simp only at hfs
    rw [remove]
    split_ifs with h1 h2 h3 h4 h5
    all_goals simp only [covers_cons, ih hrest]
    · constructor
      · intro hy
        have := htail hy
        exact ⟨.inr hy, by omega⟩
      · rintro ⟨hy | hy, hne⟩
        · omega
        · exact hy
    · constructor
      · rintro (hy | hy)
        · exact ⟨.inl (by omega), by omega⟩
        · have := htail hy
          exact ⟨.inr hy, by omega⟩
      · rintro ⟨hy | hy, hne⟩
        · exact .inl (by omega)
        · exact .inr hy
    · constructor
      · rintro (hy | hy)
        · exact ⟨.inl (by omega), by omega⟩
        · have := htail hy
          exact ⟨.inr hy, by omega⟩
      · rintro ⟨hy | hy, hne⟩
        · exact .inl (by omega)
        · exact .inr hy
    · constructor
      · rintro (hy | hy | hy)
        · exact ⟨.inl (by omega), by omega⟩
        · exact ⟨.inl (by omega), by omega⟩
        · have := htail hy
          exact ⟨.inr hy, by omega⟩
      · rintro ⟨hy | hy, hne⟩
        · rcases Nat.lt_or_gt_of_ne hne with hlt | hlt
          · exact .inl (by omega)
          · exact .inr (.inl (by omega))
        · exact .inr (.inr hy)
    · constructor
      · rintro (hy | hy)
        · exact ⟨.inl hy, by omega⟩
        · have := htail hy
          exact ⟨.inr hy, by omega⟩
      · exact fun hy => hy.1
    · constructor
      · rintro (hy | ⟨hy, hne⟩)
        · exact ⟨.inl hy, by omega⟩
        · exact ⟨.inr hy, hne⟩
      · rintro ⟨hy | hy, hne⟩
        · exact .inl hy
        · exact .inr ⟨hy, hne⟩

/-- Every interval that is left lies inside one that was there. -/
theorem exists_of_mem_remove {x : Nat} {l : List (Nat × Nat)} {r : Nat × Nat}
    (h : r ∈ remove x l) : ∃ s ∈ l, s.1 ≤ r.1 ∧ r.2 ≤ s.2 := by
  induction l with
  | nil => simp [remove] at h
  | cons q rest ih =>
    obtain ⟨f, s⟩ := q
    unfold remove at h
    split_ifs at h with h1 h2 h3 h4 h5
    · exact ⟨r, List.mem_cons_of_mem _ h, Nat.le_refl _, Nat.le_refl _⟩
    · rcases List.mem_cons.mp h with rfl | h
      · exact ⟨_, List.mem_cons_self, by simp, by simp⟩
      · exact ⟨r, List.mem_cons_of_mem _ h, Nat.le_refl _, Nat.le_refl _⟩
    · rcases List.mem_cons.mp h with rfl | h
      · exact ⟨_, List.mem_cons_self, by simp, by simp⟩
      · exact ⟨r, List.mem_cons_of_mem _ h, Nat.le_refl _, Nat.le_refl _⟩
    · rcases List.mem_cons.mp h with rfl | h
      · exact ⟨(f, s), List.mem_cons_self, by simp, by simp only; omega⟩
      · rcases List.mem_cons.mp h with rfl | h
        · exact ⟨(f, s), List.mem_cons_self, by simp only; omega, by simp⟩
        · exact ⟨r, List.mem_cons_of_mem _ h, Nat.le_refl _, Nat.le_refl _⟩
    · exact ⟨r, h, Nat.le_refl _, Nat.le_refl _⟩
    · rcases List.mem_cons.mp h with rfl | h
      · exact ⟨_, List.mem_cons_self, Nat.le_refl _, Nat.le_refl _⟩
      · obtain ⟨t, ht, hle⟩ := ih h
        exact ⟨t, List.mem_cons_of_mem _ ht, hle⟩

theorem ascending_remove {l : List (Nat × Nat)} (h : Ascending l) (x : Nat) :
    Ascending (remove x l) := by
  induction l with
  | nil => exact h
  | cons q rest ih =>
    obtain ⟨f, s⟩ := q
    obtain ⟨hfs, hlt, hrest⟩ := ascending_cons.mp h
    simp only at hfs hlt
    rw [remove]
    split_ifs with h1 h2 h3 h4 h5
    · exact hrest
    · exact ascending_cons.mpr ⟨by simp only; omega, hlt, hrest⟩
    · refine ascending_cons.mpr ⟨by simp only; omega, fun t ht => ?_, hrest⟩
      have := hlt t ht
      simp only
      omega
    · refine ascending_cons.mpr ⟨by simp only; omega, fun t ht => ?_,
        ascending_cons.mpr ⟨by simp only; omega, hlt, hrest⟩⟩
      rcases List.mem_cons.mp ht with rfl | ht
      · simp only
        omega
      · have := hlt t ht
        simp only
        omega
    · exact h
    · refine ascending_cons.mpr ⟨hfs, fun t ht => ?_, ih hrest⟩
      obtain ⟨u, hu, hle, _⟩ := exists_of_mem_remove ht
      have := hlt u hu
      simp only
      omega

/-- An interval above everything covered may be appended. -/
theorem ascending_append {l : List (Nat × Nat)} {f s : Nat} (h : Ascending l) (hfs : f ≤ s)
    (hl : ∀ r ∈ l, r.2 < f) : Ascending (l ++ [(f, s)]) := by
  refine ⟨?_, List.pairwise_append.mpr ⟨h.2, List.pairwise_singleton _ _, ?_⟩⟩
  · intro r hr
    rcases List.mem_append.mp hr with hr | hr
    · exact h.1 r hr
    · rw [List.mem_singleton] at hr
      subst hr
      exact hfs
  · intro r hr t ht
    rw [List.mem_singleton] at ht
    subst ht
    exact hl r hr

/-- How many points the intervals have. -/
def total : List (Nat × Nat) → Nat
  | [] => 0
  | r :: l => r.2 - r.1 + 1 + total l

theorem total_le {l : List (Nat × Nat)} (h : Ascending l) {lo hi : Nat} (hl : ∀ r ∈ l, lo ≤ r.1 ∧ r.2 < hi) :
    total l ≤ hi - lo := by
  induction l generalizing lo with
  | nil => exact Nat.zero_le _
  | cons r l ih =>
    obtain ⟨hr, hbehind, hrest⟩ := ascending_cons.mp h
    have hhead := hl r List.mem_cons_self
    have ih : total l ≤ hi - (r.2 + 1) := by
      apply ih hrest
      intro t ht
      exact ⟨hbehind t ht, (hl t (List.mem_cons_of_mem r ht)).2⟩
    rw [total]
    omega

theorem finite_covers (l : List (Nat × Nat)) : {x | Covers l x}.Finite := by
  induction l with
  | nil => simp
  | cons r l ih =>
    have heq : {x | Covers (r :: l) x} = Set.Icc r.1 r.2 ∪ {x | Covers l x} := by
      ext x
      simp
    rw [heq]
    exact (Set.finite_Icc r.1 r.2).union ih

theorem ncard_covers {l : List (Nat × Nat)} (h : Ascending l) : {x | Covers l x}.ncard = total l := by
  induction l with
  | nil => simp [total]
  | cons r l ih =>
    obtain ⟨hr, -, hrest⟩ := ascending_cons.mp h
    have heq : {x | Covers (r :: l) x} = Set.Icc r.1 r.2 ∪ {x | Covers l x} := by
      ext x
      simp
    have hdisj : Disjoint (Set.Icc r.1 r.2) {x | Covers l x} := by
      rw [Set.disjoint_left]
      intro x hx hcov
      exact absurd (lt_of_covers_tail h hcov) (Nat.not_lt.mpr hx.2)
    have hcard : (Set.Icc r.1 r.2).ncard = r.2 - r.1 + 1 := by
      rw [Set.ncard_eq_toFinset_card', Set.toFinset_Icc, Nat.card_Icc]
      omega
    rw [heq, Set.ncard_union_eq hdisj (Set.finite_Icc _ _) (finite_covers l), ih hrest, hcard, total]

end Tornet.Library.Intervals
