import Mathlib.Data.Prod.Lex
import Tornet.Library.SortedMap

/-! Tables with a secondary index: the keys of the records once more, in the order of a second key that is
made of the records, and a cursor that reads along the index. -/
namespace Tornet.Library

/-- The signed words in the order of their values. -/
instance int64LinearOrder : LinearOrder Int64 where
  le := (· ≤ ·)
  lt := (· < ·)
  le_refl a := Int64.le_refl a
  le_trans a b c := Int64.le_trans
  le_antisymm a b := Int64.le_antisymm
  lt_iff_le_not_ge a b := by
    rw [Int64.le_iff_toInt_le, Int64.le_iff_toInt_le, Int64.lt_iff_toInt_lt]
    omega
  le_total a b := Int64.le_total a b
  toDecidableLE := inferInstance
  toDecidableEq := inferInstance
  toDecidableLT := inferInstance

namespace SortedMap
variable {κ α : Type*} [LinearOrder κ] {m : SortedMap κ α} {k : κ} {v : α}

theorem get?_eq_some_iff : m.get? k = some v ↔ (k, v) ∈ m.entries := by
  constructor
  · exact m.mem_of_get?
  · intro h
    have hnodup : (m.entries.map Prod.fst).Nodup := m.keys_nodup
    cases hget : m.get? k with
    | none =>
      rw [get?, Option.map_eq_none_iff, List.find?_eq_none] at hget
      exact absurd (decide_eq_true rfl) (hget (k, v) h)
    | some w =>
      have hmem := m.mem_of_get? hget
      rw [(Prod.mk.inj (List.inj_on_of_nodup_map hnodup hmem h rfl)).2]

theorem size_insert_le (m : SortedMap κ α) (k : κ) (v : α) : (m.insert k v).size ≤ m.size + 1 := by
  rw [← length_keys, keys_insert, ← length_keys]
  exact length_insertKey_le k m.keys

/-- The entry of the key is the new one, and every other is as it was. -/
theorem mem_assign_iff {es : List (κ × α)} (hes : (es.map Prod.fst).Pairwise (· < ·)) {e : κ × α} :
    e ∈ assign k v es ↔ e = (k, v) ∨ e.1 ≠ k ∧ e ∈ es := by
  induction es with
  | nil => simp [assign]
  | cons a es ih =>
    obtain ⟨hfirst, hrest⟩ := List.pairwise_cons.mp hes
    rw [assign]
    split_ifs with hlt heq
    · -- the key is below all others
      have hne : e ∈ a :: es → e.1 ≠ k := by
        intro hmem
        rcases List.mem_cons.mp hmem with rfl | hmem
        · exact hlt.ne'
        · exact (hlt.trans (hfirst e.1 (List.mem_map_of_mem hmem))).ne'
      rw [List.mem_cons]
      exact or_congr_right ⟨fun hmem => ⟨hne hmem, hmem⟩, And.right⟩
    · have hne : e ∈ es → e.1 ≠ k := fun hmem => heq ▸ (hfirst e.1 (List.mem_map_of_mem hmem)).ne'
      rw [List.mem_cons]
      apply or_congr_right
      constructor
      · exact fun hmem => ⟨hne hmem, List.mem_cons_of_mem a hmem⟩
      · rintro ⟨hk, hmem⟩
        rcases List.mem_cons.mp hmem with rfl | hmem
        · exact absurd heq.symm hk
        · exact hmem
    · rw [List.mem_cons, ih hrest, List.mem_cons]
      constructor
      · rintro (rfl | rfl | ⟨hk, hmem⟩)
        · exact .inr ⟨Ne.symm heq, .inl rfl⟩
        · exact .inl rfl
        · exact .inr ⟨hk, .inr hmem⟩
      · rintro (rfl | ⟨hk, rfl | hmem⟩)
        · exact .inr (.inl rfl)
        · exact .inl rfl
        · exact .inr (.inr ⟨hk, hmem⟩)

theorem get?_insert (k k' : κ) (v : α) : (m.insert k v).get? k' = if k' = k then some v else m.get? k' := by
  apply Option.ext
  intro w
  rw [get?_eq_some_iff, insert, mem_assign_iff m.sorted, ← get?_eq_some_iff]
  split_ifs with h
  · simp [h, eq_comm]
  · simp [h]

/-- The record number of a key; they begin with 1. -/
def recnoOf (m : SortedMap κ α) (k : κ) : Nat := m.keys.findIdx (fun k' => k' = k) + 1

/-- The number of the last entry is that of all entries. -/
theorem recnoOf_last {k : κ} (h : m.lastKey? = some k) : m.recnoOf k = m.size := by
  have hne : m.keys ≠ [] := by
    rintro hnil
    rw [lastKey?, hnil] at h
    cases h
  obtain rfl : m.keys.getLast hne = k := by
    rw [lastKey?, List.getLast?_eq_some_getLast hne] at h
    exact Option.some.inj h
  have hpos := List.length_pos_iff.mpr hne
  have hlast : m.keys.length - 1 < m.keys.length := by omega
  have hidx : m.keys.findIdx (fun k' => k' = m.keys.getLast hne) = m.keys.length - 1 := by
    apply (List.findIdx_eq hlast).mpr
    constructor
    · exact decide_eq_true (List.getLast_eq_getElem hne).symm
    · intro j hj
      apply decide_eq_false
      intro he
      rw [List.getLast_eq_getElem, m.keys_nodup.getElem_inj_iff] at he
      omega
  rw [recnoOf, hidx, ← length_keys]
  omega

end SortedMap

/-! ### Tables -/

/-- A table and the index by the second key: each key stands there once, with the second key of its record. -/
structure Table (κ σ α : Type*) [LinearOrder κ] [LinearOrder σ] (key : α → σ) where
  primary : SortedMap κ α
  index : List (σ ×ₗ κ)
  sorted : index.Pairwise (· < ·)
  coherent : ∀ s k, toLex (s, k) ∈ index ↔ ∃ v, primary.get? k = some v ∧ key v = s

namespace Table
variable {κ σ α : Type*} [LinearOrder κ] [LinearOrder σ] {key : α → σ}

def empty : Table κ σ α key where
  primary := .empty
  index := []
  sorted := .nil
  coherent _ _ := by simp [SortedMap.get?]

/-- The index without the entry of a key. -/
def unlisted (t : Table κ σ α key) (k : κ) : List (σ ×ₗ κ) :=
  match t.primary.get? k with
  | none => t.index
  | some old => t.index.erase (toLex (key old, k))

theorem nodup_index (t : Table κ σ α key) : t.index.Nodup := t.sorted.imp ne_of_lt

theorem unlisted_sublist (t : Table κ σ α key) (k : κ) : (t.unlisted k).Sublist t.index := by
  rw [unlisted]
  split
  · exact List.Sublist.refl _
  · exact List.erase_sublist

theorem mem_unlisted (t : Table κ σ α key) (k : κ) (e : σ ×ₗ κ) : e ∈ t.unlisted k ↔ (ofLex e).2 ≠ k ∧ e ∈ t.index := by
  have hmem : e ∈ t.index ↔ ∃ v, t.primary.get? (ofLex e).2 = some v ∧ key v = (ofLex e).1 := t.coherent _ _
  rw [unlisted]
  split
  · next hnone =>
    rw [hmem]
    refine ⟨fun h => ⟨?_, h⟩, And.right⟩
    rintro rfl
    obtain ⟨v, hv, -⟩ := h
    rw [hnone] at hv
    cases hv
  · next old hold =>
    rw [t.nodup_index.mem_erase_iff]
    apply and_congr_left
    intro he
    obtain ⟨v, hv, hs⟩ := hmem.mp he
    constructor
    · intro hne hk
      rw [hk, hold] at hv
      obtain rfl := Option.some.inj hv
      exact hne (ofLex.injective (Prod.ext hs.symm hk))
    · rintro hk rfl
      exact hk rfl

/-- `put`: the entry of the old record goes, and that of the new one is put where it belongs. -/
def put (t : Table κ σ α key) (k : κ) (v : α) : Table κ σ α key where
  primary := t.primary.insert k v
  index := insertKey (toLex (key v, k)) (t.unlisted k)
  sorted := pairwise_insertKey _ (t.sorted.sublist (t.unlisted_sublist k))
  coherent s k' := by
    rw [mem_insertKey, mem_unlisted, SortedMap.get?_insert, t.coherent]
    change toLex (s, k') = toLex (key v, k) ∨ k' ≠ k ∧ _ ↔ _
    rw [EmbeddingLike.apply_eq_iff_eq, Prod.mk.injEq]
    split_ifs with h
    · simp [h, eq_comm]
    · simp [h]

@[simp] theorem get?_put (t : Table κ σ α key) (k k' : κ) (v : α) :
    (t.put k v).primary.get? k' = if k' = k then some v else t.primary.get? k' := SortedMap.get?_insert k k' v

/-! ### How many entries -/

theorem unlisted_eq_filter (t : Table κ σ α key) (k : κ) : t.unlisted k = t.index.filter fun e => (ofLex e).2 ≠ k := by
  have hsorted := t.sorted.sublist (t.unlisted_sublist k)
  apply List.Perm.eq_of_pairwise (fun a b _ _ hab hba => absurd hba hab.asymm) hsorted (t.sorted.filter _)
  apply (List.perm_ext_iff_of_nodup (hsorted.imp ne_of_lt) (t.nodup_index.filter _)).mpr
  intro e
  rw [mem_unlisted, List.mem_filter, decide_eq_true_iff, and_comm]

theorem insertKey_perm {k : κ} {l : List κ} (h : k ∉ l) : (insertKey k l).Perm (k :: l) := by
  induction l with
  | nil => exact .refl _
  | cons a l ih =>
    rw [List.mem_cons, not_or] at h
    rw [insertKey, if_neg h.1]
    split_ifs
    · exact .refl _
    · exact ((ih h.2).cons a).trans (.swap _ _ _)

/-- After a `put`: the entries of the other keys, and the new one. -/
theorem countP_put (t : Table κ σ α key) (k : κ) (v : α) (p : σ ×ₗ κ → Bool) :
    (t.put k v).index.countP p =
      t.index.countP (fun e => p e && decide ((ofLex e).2 ≠ k)) + if p (toLex (key v, k)) then 1 else 0 := by
  have hnew : toLex (key v, k) ∉ t.unlisted k := fun h => ((t.mem_unlisted k _).mp h).1 rfl
  have hput : (t.put k v).index = insertKey (toLex (key v, k)) (t.unlisted k) := rfl
  rw [hput, (insertKey_perm hnew).countP_eq, List.countP_cons, unlisted_eq_filter, List.countP_filter]

/-- A key has one entry at most. -/
theorem countP_key_le (t : Table κ σ α key) (k : κ) : t.index.countP (fun e => (ofLex e).2 = k) ≤ 1 := by
  cases hget : t.primary.get? k with
  | none =>
    rw [List.countP_eq_zero.mpr]
    · exact Nat.zero_le 1
    · intro e he hk
      obtain ⟨v, hv, -⟩ := (t.coherent (ofLex e).1 (ofLex e).2).mp he
      rw [of_decide_eq_true hk, hget] at hv
      cases hv
  | some v =>
    have hle : t.index.countP (fun e => (ofLex e).2 = k) ≤ t.index.count (toLex (key v, k)) := by
      apply List.countP_mono_left
      intro e he hk
      obtain ⟨w, hw, hs⟩ := (t.coherent (ofLex e).1 (ofLex e).2).mp he
      rw [of_decide_eq_true hk, hget] at hw
      obtain rfl := Option.some.inj hw
      rw [beq_iff_eq, hs, ← of_decide_eq_true hk]
      rfl
    exact hle.trans (List.nodup_iff_count_le_one.mp t.nodup_index _)

/-- Without a key at most its one entry is missing. -/
theorem countP_le_others (t : Table κ σ α key) (k : κ) (p : σ ×ₗ κ → Bool) :
    t.index.countP p ≤ t.index.countP (fun e => p e && decide ((ofLex e).2 ≠ k)) + 1 := by
  have hsplit : (t.index.filter p).length = _ :=
    List.length_eq_countP_add_countP fun e : σ ×ₗ κ => decide ((ofLex e).2 ≠ k)
  rw [← List.countP_eq_length_filter, List.countP_filter, List.countP_filter] at hsplit
  have hone : t.index.countP (fun e => decide (¬decide ((ofLex e).2 ≠ k) = true) && p e) ≤ 1 := by
    apply le_trans _ (t.countP_key_le k)
    apply List.countP_mono_left
    intro e _ he
    simpa using (Bool.and_eq_true_iff.mp he).1
  simp only [Bool.and_comm (p _)]
  omega

/-- Without the key of one of them there are fewer. -/
theorem countP_others_lt (t : Table κ σ α key) {e : σ ×ₗ κ} (he : e ∈ t.index) {p : σ ×ₗ κ → Bool} (hp : p e = true) :
    t.index.countP (fun e' => p e' && decide ((ofLex e').2 ≠ (ofLex e).2)) < t.index.countP p := by
  simp only [Bool.and_comm (p _)]
  rw [← List.countP_filter, List.countP_eq_length_filter (p := p), List.countP_lt_length_iff]
  exact ⟨e, List.mem_filter.mpr ⟨he, hp⟩, by simp⟩

/-! ### Cursors -/

/-- The record of an entry, which is read from the table. -/
def pget (t : Table κ σ α key) (e : σ ×ₗ κ) : Option (κ × α) :=
  (t.primary.get? (ofLex e).2).map fun v => ((ofLex e).2, v)

/-- The place of a record in the index. -/
def place (key : α → σ) (e : κ × α) : σ ×ₗ κ := toLex (key e.2, e.1)

/-- The records in the order of the index. -/
def listed (t : Table κ σ α key) : List (κ × α) := t.index.filterMap t.pget

theorem pget_eq_some (t : Table κ σ α key) {e : σ ×ₗ κ} (he : e ∈ t.index) :
    ∃ v, t.pget e = some ((ofLex e).2, v) ∧ t.primary.get? (ofLex e).2 = some v ∧ key v = (ofLex e).1 := by
  obtain ⟨v, hv, hs⟩ := (t.coherent (ofLex e).1 (ofLex e).2).mp he
  exact ⟨v, by rw [pget, hv]; rfl, hv, hs⟩

theorem map_place_filterMap (t : Table κ σ α key) {es : List (σ ×ₗ κ)} (h : ∀ e ∈ es, e ∈ t.index) :
    (es.filterMap t.pget).map (place key) = es := by
  induction es with
  | nil => rfl
  | cons e es ih =>
    rw [List.forall_mem_cons] at h
    obtain ⟨v, hget, -, hs⟩ := t.pget_eq_some h.1
    rw [List.filterMap_cons_some hget, List.map_cons, ih h.2, place, hs]
    rfl

theorem map_place_listed (t : Table κ σ α key) : t.listed.map (place key) = t.index :=
  t.map_place_filterMap fun _ he => he

/-- The index lists every record of the table. -/
theorem mem_listed_iff (t : Table κ σ α key) (k : κ) (v : α) : (k, v) ∈ t.listed ↔ t.primary.get? k = some v := by
  constructor
  · intro h
    obtain ⟨e, he, hget⟩ := List.mem_filterMap.mp h
    obtain ⟨w, hw, hlookup, -⟩ := t.pget_eq_some he
    obtain ⟨rfl, rfl⟩ := Prod.mk.inj (Option.some.inj (hget.symm.trans hw))
    exact hlookup
  · intro h
    apply List.mem_filterMap.mpr
    exact ⟨toLex (key v, k), (t.coherent _ _).mpr ⟨v, h, rfl⟩, by rw [pget]; exact congrArg _ h⟩

/-- They stand there in the order of their second keys, and where these are the same in that of their first. -/
theorem listed_pairwise (t : Table κ σ α key) :
    t.listed.Pairwise fun a b => place key a < place key b := by
  rw [← List.pairwise_map, map_place_listed]
  exact t.sorted

end Table

/-- Where a cursor stands that is set to the first entry from a second key on, in a list in their order. -/
theorem mem_dropWhile_lt {α σ : Type*} [LinearOrder σ] {f : α → σ} {l : List α}
    (h : l.Pairwise fun a b => f a ≤ f b) {c : σ} {a : α} :
    a ∈ l.dropWhile (fun a => f a < c) ↔ a ∈ l ∧ c ≤ f a := by
  induction l with
  | nil => simp
  | cons b l ih =>
    obtain ⟨hb, hl⟩ := List.pairwise_cons.mp h
    by_cases hlt : f b < c
    · rw [List.dropWhile_cons_of_pos (by simpa using hlt), ih hl, List.mem_cons]
      apply and_congr_left
      intro hc
      exact (or_iff_right (by rintro rfl; exact hlt.not_ge hc)).symm
    · rw [List.dropWhile_cons_of_neg (by simpa using hlt)]
      refine (and_iff_left_of_imp fun ha => ?_).symm
      rcases List.mem_cons.mp ha with rfl | ha
      · exact not_lt.mp hlt
      · exact (not_lt.mp hlt).trans (hb a ha)

/-- Only so many of a list without repetitions are in another. -/
theorem countP_mem_le {α : Type*} [DecidableEq α] {l : List α} (h : l.Nodup) (m : List α) :
    l.countP (fun a => a ∈ m) ≤ m.length := by
  rw [List.countP_eq_length_filter]
  apply List.Subperm.length_le
  apply List.subperm_of_subset (h.filter _)
  intro a ha
  exact of_decide_eq_true (List.mem_filter.mp ha).2

/-- What is searched for is among the first `n` if fewer than `n` are not what is searched for. -/
theorem find?_take {α : Type*} {p : α → Bool} {l : List α} {n : Nat} (h : l.countP (fun a => !p a) < n) :
    (l.take n).find? p = l.find? p := by
  rcases Nat.le_total l.length n with hle | hle
  · rw [List.take_of_length_le hle]
  · nth_rewrite 2 [← List.take_append_drop n l]
    rw [List.find?_append]
    cases hfound : (l.take n).find? p with
    | some a => rfl
    | none =>
      have hall : ∀ a ∈ l.take n, (!p a) = true := fun a ha => by simpa using List.find?_eq_none.mp hfound a ha
      have hcount := (List.take_sublist n l).countP_le (p := fun a => !p a)
      rw [List.countP_eq_length.mpr hall, List.length_take] at hcount
      omega

/-- In a sorted list the first that is found is the least. -/
theorem find?_sorted {α : Type*} [LinearOrder α] {p : α → Bool} {l : List α} (h : l.Pairwise (· < ·)) {a : α} :
    l.find? p = some a ↔ a ∈ l ∧ p a = true ∧ ∀ b ∈ l, p b = true → a ≤ b := by
  induction l with
  | nil => simp
  | cons c l ih =>
    obtain ⟨hc, hl⟩ := List.pairwise_cons.mp h
    by_cases hp : p c = true
    · rw [List.find?_cons_of_pos hp, Option.some_inj]
      constructor
      · rintro rfl
        refine ⟨List.mem_cons_self, hp, fun b hb _ => ?_⟩
        rcases List.mem_cons.mp hb with rfl | hb
        · exact le_refl _
        · exact (hc b hb).le
      · rintro ⟨ha, -, hleast⟩
        rcases List.mem_cons.mp ha with rfl | ha
        · rfl
        · exact absurd (hleast c List.mem_cons_self hp) (hc a ha).not_ge
    · rw [List.find?_cons_of_neg hp, ih hl, List.mem_cons]
      constructor
      · rintro ⟨ha, hpa, hleast⟩
        refine ⟨.inr ha, hpa, fun b hb hpb => ?_⟩
        rcases List.mem_cons.mp hb with rfl | hb
        · exact absurd hpb hp
        · exact hleast b hb hpb
      · rintro ⟨ha, hpa, hleast⟩
        have hne : a ≠ c := by
          rintro rfl
          exact hp hpa
        exact ⟨ha.resolve_left hne, hpa, fun b hb hpb => hleast b (List.mem_cons_of_mem c hb) hpb⟩

end Tornet.Library
