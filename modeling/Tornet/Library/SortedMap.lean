import Mathlib.Data.Finset.Sort
import Mathlib.Data.Finset.Image

/-! Maps in the order of their keys, as a list: assignment, the first and the last entry, and what is
left when only the first entries are kept. -/
namespace Tornet.Library

variable {κ α : Type*} [LinearOrder κ]

/-- Assign a value to a key, in the place of the key or where it belongs. -/
def assign (k : κ) (v : α) : List (κ × α) → List (κ × α)
  | [] => [(k, v)]
  | e :: es => if k < e.1 then (k, v) :: e :: es else if k = e.1 then (k, v) :: es else e :: assign k v es

/-- What an assignment does to the keys. -/
def insertKey (k : κ) : List κ → List κ
  | [] => [k]
  | a :: as => if k < a then k :: a :: as else if k = a then a :: as else a :: insertKey k as

theorem map_fst_assign (k : κ) (v : α) (es : List (κ × α)) :
    (assign k v es).map Prod.fst = insertKey k (es.map Prod.fst) := by
  induction es with
  | nil => rfl
  | cons e es ih =>
    rw [assign, List.map_cons, insertKey]
    split_ifs with hlt heq
    · rfl
    · rw [List.map_cons, heq]
    · rw [List.map_cons, ih]

theorem mem_assign {k : κ} {v : α} {es : List (κ × α)} {e : κ × α} (h : e ∈ assign k v es) :
    e = (k, v) ∨ e ∈ es := by
  induction es with
  | nil => exact .inl (List.mem_singleton.mp h)
  | cons e' es ih =>
    rw [assign] at h
    split_ifs at h with hlt heq
    · exact List.mem_cons.mp h
    · rcases List.mem_cons.mp h with h | h
      · exact .inl h
      · exact .inr (List.mem_cons_of_mem _ h)
    · rcases List.mem_cons.mp h with rfl | h
      · exact .inr List.mem_cons_self
      · exact (ih h).imp id (List.mem_cons_of_mem _)

/-- A key that is new gets an entry of its own. -/
theorem assign_perm {k : κ} (v : α) {es : List (κ × α)} (h : k ∉ es.map Prod.fst) : (assign k v es).Perm ((k, v) :: es) := by
  induction es with
  | nil => exact .refl _
  | cons e es ih =>
    rw [List.map_cons, List.mem_cons, not_or] at h
    rw [assign, if_neg h.1]
    split_ifs
    · exact .refl _
    · exact ((ih h.2).cons e).trans (.swap _ _ _)

@[simp] theorem mem_insertKey {k a : κ} {l : List κ} : a ∈ insertKey k l ↔ a = k ∨ a ∈ l := by
  induction l with
  | nil => simp [insertKey]
  | cons b l ih =>
    rw [insertKey]
    split_ifs with hlt heq
    · exact List.mem_cons
    · rw [heq, List.mem_cons]
      tauto
    · rw [List.mem_cons, List.mem_cons, ih]
      tauto

theorem pairwise_insertKey (k : κ) {l : List κ} (h : l.Pairwise (· < ·)) : (insertKey k l).Pairwise (· < ·) := by
  induction l with
  | nil => exact List.pairwise_singleton _ k
  | cons b l ih =>
    obtain ⟨hb, hl⟩ := List.pairwise_cons.mp h
    rw [insertKey]
    split_ifs with hlt heq
    · refine .cons ?_ h
      intro a ha
      rcases List.mem_cons.mp ha with rfl | ha
      · exact hlt
      · exact hlt.trans (hb a ha)
    · exact h
    · refine .cons ?_ (ih hl)
      intro a ha
      rcases mem_insertKey.mp ha with rfl | ha
      · exact lt_of_le_of_ne (not_lt.mp hlt) (Ne.symm heq)
      · exact hb a ha

/-- The first `n` keys after an assignment depend on the first `n` before it only. -/
theorem take_insertKey (k : κ) (n : Nat) (l : List κ) : (insertKey k (l.take n)).take n = (insertKey k l).take n := by
  induction l generalizing n with
  | nil => rw [List.take_nil]
  | cons b l ih =>
    cases n with
    | zero => rfl
    | succ n =>
      rw [List.take_succ_cons, insertKey, insertKey]
      split_ifs with hlt heq
      · rw [List.take_succ_cons, List.take_succ_cons]
        cases n with
        | zero => rfl
        | succ n => rw [List.take_succ_cons, List.take_succ_cons, List.take_take, Nat.min_eq_left (Nat.le_succ n)]
      · rw [List.take_succ_cons, List.take_succ_cons, List.take_take, Nat.min_self]
      · rw [List.take_succ_cons, List.take_succ_cons, ih]

theorem length_insertKey_le (k : κ) (l : List κ) : (insertKey k l).length ≤ l.length + 1 := by
  induction l with
  | nil => exact Nat.le_refl 1
  | cons b l ih =>
    rw [insertKey]
    split_ifs with hlt heq
    · exact Nat.le_refl _
    · exact Nat.le_succ _
    · exact Nat.succ_le_succ ih

theorem sort_insert_eq (k : κ) (s : Finset κ) : (insert k s).sort (· ≤ ·) = insertKey k (s.sort (· ≤ ·)) := by
  have hins := pairwise_insertKey k s.sortedLT_sort.pairwise
  apply List.Perm.eq_of_pairwise (fun a b _ _ hab hba => le_antisymm hab hba) (Finset.pairwise_sort _ _)
    (hins.imp le_of_lt)
  apply (List.perm_ext_iff_of_nodup (Finset.sort_nodup _ _) (hins.imp ne_of_lt)).mpr
  intro a
  simp

/-- A `std::map`. -/
structure SortedMap (κ α : Type*) [LinearOrder κ] where
  entries : List (κ × α)
  sorted : (entries.map Prod.fst).Pairwise (· < ·)

namespace SortedMap

variable (m : SortedMap κ α)

def keys : List κ := m.entries.map Prod.fst

def size : Nat := m.entries.length

def empty : SortedMap κ α := ⟨[], List.Pairwise.nil⟩

@[simp] theorem entries_empty : (empty : SortedMap κ α).entries = [] := rfl

/-- `m.find( k ) != m.end()`. -/
def contains (k : κ) : Bool := m.entries.any fun e => e.1 = k

/-- `m[k] = v`. -/
def insert (k : κ) (v : α) : SortedMap κ α where
  entries := assign k v m.entries
  sorted := by
    rw [map_fst_assign]
    exact pairwise_insertKey k m.sorted

/-- `m.erase( m.begin() )`. -/
def eraseFirst : SortedMap κ α where
  entries := m.entries.tail
  sorted := by
    rw [List.map_tail]
    exact m.sorted.tail

/-- `m.erase( --m.end() )`. -/
def eraseLast : SortedMap κ α where
  entries := m.entries.dropLast
  sorted := by
    rw [List.map_dropLast]
    exact m.sorted.sublist (List.dropLast_sublist _)

/-- `(--m.end())->first`, of a map that is not empty. -/
def lastKey? : Option κ := m.keys.getLast?

@[simp] theorem keys_insert (k : κ) (v : α) : (m.insert k v).keys = insertKey k m.keys := map_fst_assign k v m.entries

@[simp] theorem contains_iff (k : κ) : m.contains k = true ↔ k ∈ m.keys := by
  simp [contains, keys]

@[simp] theorem length_keys : m.keys.length = m.size := List.length_map _

theorem keys_nodup : m.keys.Nodup := m.sorted.imp ne_of_lt

/-- A map whose keys are in a finite set is not larger than the set. -/
theorem size_le_card {s : Finset κ} (h : ∀ k ∈ m.keys, k ∈ s) : m.size ≤ s.card := by
  rw [← length_keys, ← List.toFinset_card_of_nodup m.keys_nodup]
  apply Finset.card_le_card
  intro k hk
  exact h k (List.mem_toFinset.mp hk)

/-- Assign, and erase the last entry while there are more than `n`. -/
def insertBounded (n : Nat) (k : κ) (v : α) : SortedMap κ α :=
  if n < (m.insert k v).size then (m.insert k v).eraseLast else m.insert k v

theorem keys_insertBounded {n : Nat} (hn : m.size ≤ n) (k : κ) (v : α) :
    (m.insertBounded n k v).keys = (insertKey k m.keys).take n := by
  have hlen := length_insertKey_le k m.keys
  rw [length_keys] at hlen
  have hsize : (insertKey k m.keys).length = (m.insert k v).size := by rw [← keys_insert, length_keys]
  rw [insertBounded]
  split_ifs with hfull
  · have hone : n = (insertKey k m.keys).length - 1 := by omega
    rw [hone, ← List.dropLast_eq_take, ← keys_insert, keys, eraseLast, List.map_dropLast]
    rfl
  · rw [keys_insert, List.take_of_length_le (by omega)]

/-- A map that holds the `n` smallest keys of a set goes on to do so. -/
theorem keys_insertBounded_of {n : Nat} {s : Finset κ} (h : m.keys = (s.sort (· ≤ ·)).take n) (k : κ) (v : α) :
    (m.insertBounded n k v).keys = ((Insert.insert k s).sort (· ≤ ·)).take n := by
  have hn : m.size ≤ n := by
    rw [← length_keys, h]
    exact List.length_take_le n _
  rw [keys_insertBounded m hn, h, take_insertKey, sort_insert_eq]

theorem mem_insertBounded {n : Nat} {k : κ} {v : α} {e : κ × α} (h : e ∈ (m.insertBounded n k v).entries) :
    e = (k, v) ∨ e ∈ m.entries := by
  rw [insertBounded] at h
  split_ifs at h
  · exact mem_assign (List.mem_of_mem_dropLast h)
  · exact mem_assign h

/-- The value of a key. -/
def get? (k : κ) : Option α := (m.entries.find? fun e => e.1 = k).map Prod.snd

theorem get?_eq_none {k : κ} (h : k ∉ m.keys) : m.get? k = none := by
  rw [get?, Option.map_eq_none_iff, List.find?_eq_none]
  intro e he hk
  exact h (List.mem_map.mpr ⟨e, he, of_decide_eq_true hk⟩)

theorem mem_of_get? {k : κ} {v : α} (h : m.get? k = some v) : (k, v) ∈ m.entries := by
  obtain ⟨e, he, rfl⟩ := Option.map_eq_some_iff.mp h
  have hk : decide (e.1 = k) = true := List.find?_some (p := fun e : κ × α => decide (e.1 = k)) he
  rw [← of_decide_eq_true hk]
  exact List.mem_of_find?_eq_some he

variable {m}

theorem entries_injective : Function.Injective (entries : SortedMap κ α → List (κ × α)) := by
  rintro ⟨es, h⟩ ⟨es', h'⟩ rfl
  rfl

/-- A map is known by its entries in any order. -/
theorem eq_of_perm {m' : SortedMap κ α} (h : m.entries.Perm m'.entries) : m = m' := by
  have hlt (m : SortedMap κ α) : m.entries.Pairwise fun a b => a.1 < b.1 := List.pairwise_map.mp m.sorted
  exact entries_injective (h.eq_of_pairwise (fun a b _ _ hab hba => absurd hba hab.asymm) (hlt m) (hlt m'))

/-- Entries with keys of their own that are assigned one after the other. -/
theorem entries_foldl_insert {es : List (κ × α)} (hnodup : (es.map Prod.fst).Nodup)
    (hnew : ∀ k ∈ es.map Prod.fst, k ∉ m.keys) :
    (es.foldl (fun m e => m.insert e.1 e.2) m).entries.Perm (es ++ m.entries) := by
  induction es generalizing m with
  | nil => exact .refl _
  | cons e es ih =>
    rw [List.map_cons, List.nodup_cons] at hnodup
    rw [List.map_cons, List.forall_mem_cons] at hnew
    have hrest : ∀ k ∈ es.map Prod.fst, k ∉ (m.insert e.1 e.2).keys := by
      intro k hk
      rw [keys_insert, mem_insertKey, not_or]
      exact ⟨fun he => hnodup.1 (he ▸ hk), hnew.2 k hk⟩
    exact (ih hnodup.2 hrest).trans (((assign_perm e.2 hnew.1).append_left es).trans List.perm_middle)

/-- Other keys and values for the entries, in the order of the keys they get. -/
def mapEntries (f : κ → κ) (g : α → α) (m : SortedMap κ α) : SortedMap κ α :=
  (m.entries.map (Prod.map f g)).foldl (fun m e => m.insert e.1 e.2) empty

variable {f : κ → κ} {g : α → α}

theorem entries_mapEntries (hf : Function.Injective f) (m : SortedMap κ α) :
    (m.mapEntries f g).entries.Perm (m.entries.map (Prod.map f g)) := by
  have hkeys : (m.entries.map (Prod.map f g)).map Prod.fst = m.keys.map f := by
    rw [keys, List.map_map, List.map_map]
    rfl
  have hperm : (m.mapEntries f g).entries.Perm (m.entries.map (Prod.map f g) ++ (empty : SortedMap κ α).entries) :=
    entries_foldl_insert (by rw [hkeys]; exact m.keys_nodup.map hf) fun _ _ => List.not_mem_nil
  rwa [entries_empty, List.append_nil] at hperm

theorem mapEntries_injective (hf : Function.Injective f) (hg : Function.Injective g) :
    Function.Injective (mapEntries f g) := by
  intro m m' h
  apply eq_of_perm
  rw [← List.map_perm_map_iff (hf.prodMap hg)]
  exact (entries_mapEntries hf m).symm.trans (h ▸ entries_mapEntries hf m')

/-- They are the entries that were there if each is one of them. -/
theorem mapEntries_eq_self_iff (hf : Function.Injective f) (hg : Function.Injective g) (m : SortedMap κ α) :
    m.mapEntries f g = m ↔ ∀ e ∈ m.entries, Prod.map f g e ∈ m.entries := by
  have hperm : (m.mapEntries f g).entries.Perm (m.entries.map (Prod.map f g)) := entries_mapEntries hf m
  constructor
  · intro h e he
    rw [h] at hperm
    exact hperm.mem_iff.mpr (List.mem_map_of_mem he)
  · intro h
    apply eq_of_perm
    have hnodup : (m.entries.map (Prod.map f g)).Nodup := (m.keys_nodup.of_map).map (hf.prodMap hg)
    have hsub : m.entries.map (Prod.map f g) ⊆ m.entries := by
      intro x hx
      obtain ⟨e, he, rfl⟩ := List.mem_map.mp hx
      exact h e he
    exact hperm.trans ((hnodup.subperm hsub).perm_of_length_le (by rw [List.length_map]))

end SortedMap

end Tornet.Library
