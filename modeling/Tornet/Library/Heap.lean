import Mathlib.Data.List.Perm.Basic
import Mathlib.Logic.Equiv.Basic

/-! Binary heaps in a vector, with the moves of `std::push_heap` and `std::pop_heap`: a hole
travels, and its value with it. -/
namespace Tornet.Library.Heap

variable {α : Type*} (less : α → α → Bool)

/-- The value at `i` moves up while its parent is less. The depth bounds the number of moves. -/
def siftUp : Nat → List α → Nat → List α
  | 0, l, _ => l
  | depth + 1, l, i =>
    if i = 0 then l
    else match l[(i - 1) / 2]?, l[i]? with
      | some p, some v =>
        if less p v then siftUp depth (l.swap i ((i - 1) / 2)) ((i - 1) / 2) else l
      | _, _ => l

/-- The value at `i` moves down to a leaf, always past the greater child. -/
def sink : Nat → List α → Nat → List α × Nat
  | 0, l, i => (l, i)
  | depth + 1, l, i =>
    match l[2 * i + 1]?, l[2 * i + 2]? with
    | some a, some b =>
      let j := if less b a then 2 * i + 1 else 2 * i + 2
      sink depth (l.swap i j) j
    | some _, none => (l.swap i (2 * i + 1), 2 * i + 1)
    | none, _ => (l, i)

/-- `__adjust_heap` from the root: down to a leaf, and up again. -/
def adjust (l : List α) : List α :=
  let r := sink less l.length l 0
  siftUp less r.2 r.1 r.2

/-- `push_back` and `push_heap`. -/
def pushHeap (l : List α) (v : α) : List α := siftUp less l.length (l ++ [v]) l.length

/-- `pop_heap` and `pop_back`: the last value takes the place of the front. -/
def popHeap : List α → List α
  | [] => []
  | _ :: rest =>
    match rest.getLast? with
    | none => []
    | some v => adjust less (v :: rest.dropLast)

theorem siftUp_perm (depth : Nat) (l : List α) (i : Nat) : (siftUp less depth l i).Perm l := by
  induction depth generalizing l i with
  | zero => exact .refl l
  | succ depth ih =>
    rw [siftUp]
    split_ifs
    · exact .refl l
    · split
      · split_ifs
        · exact (ih _ _).trans (List.swap_perm l _ _)
        · exact .refl l
      · exact .refl l

theorem sink_perm (depth : Nat) (l : List α) (i : Nat) : (sink less depth l i).1.Perm l := by
  induction depth generalizing l i with
  | zero => exact .refl l
  | succ depth ih =>
    rw [sink]
    split
    · exact (ih _ _).trans (List.swap_perm l _ _)
    · exact List.swap_perm l _ _
    · exact .refl l

theorem adjust_perm (l : List α) : (adjust less l).Perm l :=
  (siftUp_perm less _ _ _).trans (sink_perm less _ _ _)

/-- A push adds its value and nothing else. -/
theorem pushHeap_perm (l : List α) (v : α) : (pushHeap less l v).Perm (v :: l) :=
  (siftUp_perm less _ _ _).trans (List.perm_append_singleton v l)

/-- A pop takes the front and nothing else. -/
theorem popHeap_perm (x : α) (rest : List α) : (popHeap less (x :: rest)).Perm rest := by
  simp only [popHeap]
  split
  · rename_i hlast
    rw [List.getLast?_eq_none_iff.mp hlast]
  · rename_i v hlast
    have hsplit : rest.dropLast ++ [v] = rest := List.dropLast_append_getLast? v hlast
    apply (adjust_perm less _).trans
    calc (v :: rest.dropLast).Perm (rest.dropLast ++ [v]) := (List.perm_append_singleton v _).symm
      _ = rest := hsplit

/-! ### The order of a heap -/

/-- What the standard library asks of a comparison. -/
structure StrictWeak : Prop where
  asymm : ∀ a b, less a b = true → less b a = false
  trans : ∀ a b c, less a b = false → less b c = false → less a c = false

/-- The value at `p`, if there is one, is not less than that at `c`. -/
def NotBelow (l : List α) (p c : Nat) : Prop := ∀ a b, l[p]? = some a → l[c]? = some b → less a b = false

/-- No value is less than one of its children. -/
def Heaped (l : List α) : Prop := ∀ j, 0 < j → NotBelow less l ((j - 1) / 2) j

/-- A heap but for the value at `i` and its parent: it may have to go up. -/
structure UpOrder (l : List α) (i : Nat) : Prop where
  except : ∀ j, 0 < j → j ≠ i → NotBelow less l ((j - 1) / 2) j
  grand : 0 < i → ∀ j, 0 < j → (j - 1) / 2 = i → NotBelow less l ((i - 1) / 2) j

/-- A heap but for the value at `i`, its parent and its children: it is on its way down. -/
structure DownOrder (l : List α) (i : Nat) : Prop where
  except : ∀ j, 0 < j → j ≠ i → (j - 1) / 2 ≠ i → NotBelow less l ((j - 1) / 2) j
  grand : 0 < i → ∀ j, 0 < j → (j - 1) / 2 = i → NotBelow less l ((i - 1) / 2) j

variable {less} {l : List α} {i j k : Nat}

theorem getElem?_swap (hi : i < l.length) (hj : j < l.length) (k : Nat) :
    (l.swap i j)[k]? = l[Equiv.swap i j k]? := by
  rw [List.swap_eq_of_lt hi hj, List.getElem?_set, List.getElem?_set, List.length_set, Equiv.swap_apply_def]
  by_cases hkj : j = k
  · subst hkj
    by_cases hji : j = i
    · subst hji
      simp [hj]
    · simp [hji, hi, hj]
  · by_cases hki : i = k
    · subst hki
      simp [hkj, hi, hj]
    · simp [hkj, hki, Ne.symm hkj, Ne.symm hki]

/-- A pair after an exchange is the pair that was there. -/
theorem notBelow_swap (hi : i < l.length) (hj : j < l.length) {p c : Nat} :
    NotBelow less (l.swap i j) p c ↔ NotBelow less l (Equiv.swap i j p) (Equiv.swap i j c) := by
  simp only [NotBelow, getElem?_swap hi hj]

theorem NotBelow.trans (hw : StrictWeak less) (hij : NotBelow less l i j) (hjk : NotBelow less l j k)
    (hj : j < l.length) : NotBelow less l i k := by
  intro a b ha hb
  have hmid := List.getElem?_eq_getElem hj
  exact hw.trans a _ b (hij a _ ha hmid) (hjk _ b hmid hb)

theorem notBelow_of_ge (hk : l.length ≤ k) : NotBelow less l i k := by
  intro a b _ hb
  rw [List.getElem?_eq_none hk] at hb
  cases hb

theorem NotBelow.of_less (hw : StrictWeak less) {a b : α} (ha : l[i]? = some a) (hb : l[j]? = some b)
    (h : less a b = true) : NotBelow less l j i := by
  intro x y hx hy
  obtain rfl := Option.some.inj (hb.symm.trans hx)
  obtain rfl := Option.some.inj (ha.symm.trans hy)
  exact hw.asymm _ _ h

/-! ### Going up -/

/-- The value at `i` takes the place of its parent, which is less. -/
theorem UpOrder.move (hw : StrictWeak less) (h : UpOrder less l i) (hi : i < l.length) (hpos : 0 < i)
    (hless : NotBelow less l i ((i - 1) / 2)) : UpOrder less (l.swap i ((i - 1) / 2)) ((i - 1) / 2) := by
  have hq : (i - 1) / 2 < l.length := by omega
  have hne : (i - 1) / 2 ≠ i := by omega
  generalize hqdef : (i - 1) / 2 = q at *
  have left := Equiv.swap_apply_left i q
  have right := Equiv.swap_apply_right i q
  have other {m : Nat} (h1 : m ≠ i) (h2 : m ≠ q) : Equiv.swap i q m = m := Equiv.swap_apply_of_ne_of_ne h1 h2
  refine ⟨fun j hj hjq => ?_, fun hq0 j hj hjp => ?_⟩
  · rw [notBelow_swap hi hq]
    by_cases hji : j = i
    · rw [hji, hqdef, left, right]
      exact hless
    rw [other hji hjq]
    by_cases hpi : (j - 1) / 2 = i
    · rw [hpi, left, ← hqdef]
      exact h.grand hpos j hj hpi
    by_cases hpq : (j - 1) / 2 = q
    · rw [hpq, right]
      have hqj := h.except j hj hji
      rw [hpq] at hqj
      exact hless.trans hw hqj hq
    · rw [other hpi hpq]
      exact h.except j hj hji
  · rw [notBelow_swap hi hq, other (by omega) (by omega)]
    have hup := h.except q hq0 hne
    by_cases hji : j = i
    · rw [hji, left]
      exact hup
    · rw [other hji (by omega)]
      have hqj := h.except j hj hji
      rw [hjp] at hqj
      exact hup.trans hw hqj hq

theorem UpOrder.heaped (h : UpOrder less l i) (hi : 0 < i → NotBelow less l ((i - 1) / 2) i) : Heaped less l := by
  intro j hj
  by_cases hji : j = i
  · rw [hji]
    exact hi (hji ▸ hj)
  · exact h.except j hj hji

/-- With a move for each place above it, the value ends where it belongs. -/
theorem siftUp_heaped (hw : StrictWeak less) {depth : Nat} (h : UpOrder less l i) (hdepth : i ≤ depth) :
    Heaped less (siftUp less depth l i) := by
  induction depth generalizing l i with
  | zero => exact h.heaped fun hpos => by omega
  | succ depth ih =>
    rw [siftUp]
    split_ifs with h0
    · exact h.heaped fun hpos => by omega
    split
    · rename_i p v hp hv
      split_ifs with hless
      · have hi : i < l.length := (List.getElem?_eq_some_iff.mp hv).1
        exact ih (h.move hw hi (by omega) (.of_less hw hp hv hless)) (by omega)
      · apply h.heaped
        intro _ a b ha hb
        obtain rfl := Option.some.inj (hp.symm.trans ha)
        obtain rfl := Option.some.inj (hv.symm.trans hb)
        exact Bool.eq_false_iff.mpr hless
    · rename_i hnone
      apply h.heaped
      intro _ a b ha hb
      exact absurd hb (fun hb => hnone a b ha hb)

/-! ### Going down -/

/-- The value at `i` changes places with its greater child. -/
theorem DownOrder.move (h : DownOrder less l i) (hj : j < l.length) (hpos : 0 < j) (hparent : (j - 1) / 2 = i)
    (hgreater : ∀ k, 0 < k → (k - 1) / 2 = i → k ≠ j → NotBelow less l j k) : DownOrder less (l.swap i j) j := by
  have hi : i < l.length := by omega
  have hne : i ≠ j := by omega
  have left := Equiv.swap_apply_left i j
  have right := Equiv.swap_apply_right i j
  have other {m : Nat} (h1 : m ≠ i) (h2 : m ≠ j) : Equiv.swap i j m = m := Equiv.swap_apply_of_ne_of_ne h1 h2
  refine ⟨fun k hk hkj hpk => ?_, fun _ k hk hpk => ?_⟩
  · rw [notBelow_swap hi hj]
    by_cases hki : k = i
    · subst hki
      rw [left, other (by omega) hpk]
      exact h.grand hk j hpos hparent
    rw [other hki hkj]
    by_cases hpi : (k - 1) / 2 = i
    · rw [hpi, left]
      exact hgreater k hk hpi hkj
    · rw [other hpi hpk]
      exact h.except k hk hki hpi
  · rw [notBelow_swap hi hj, hparent, left, other (by omega) (by omega)]
    have hjk := h.except k hk (by omega) (by omega)
    rwa [hpk] at hjk

/-- Without children, what went down may go up again. -/
theorem DownOrder.up (h : DownOrder less l i) (hleaf : l.length ≤ 2 * i + 1) : UpOrder less l i := by
  refine ⟨fun j hj hji => ?_, h.grand⟩
  by_cases hp : (j - 1) / 2 = i
  · exact notBelow_of_ge (by omega)
  · exact h.except j hj hji hp

theorem sink_up (hw : StrictWeak less) {depth : Nat} (h : DownOrder less l i) (hdepth : l.length ≤ depth + i) :
    UpOrder less (sink less depth l i).1 (sink less depth l i).2 := by
  induction depth generalizing l i with
  | zero => exact h.up (by omega)
  | succ depth ih =>
    rw [sink]
    split
    · rename_i a b ha hb
      have hb' : 2 * i + 2 < l.length := (List.getElem?_eq_some_iff.mp hb).1
      split_ifs with hless
      · refine ih (h.move (by omega) (by omega) (by omega) fun k _ hk hne => ?_) (by rw [List.length_swap]; omega)
        obtain rfl : k = 2 * i + 2 := by omega
        exact .of_less hw hb ha hless
      · refine ih (h.move (by omega) (by omega) (by omega) fun k _ hk hne x y hx hy => ?_)
          (by rw [List.length_swap]; omega)
        obtain rfl : k = 2 * i + 1 := by omega
        obtain rfl := Option.some.inj (hb.symm.trans hx)
        obtain rfl := Option.some.inj (ha.symm.trans hy)
        exact Bool.eq_false_iff.mpr hless
    · rename_i a ha hb
      have ha' : 2 * i + 1 < l.length := (List.getElem?_eq_some_iff.mp ha).1
      have hb' : l.length ≤ 2 * i + 2 := List.getElem?_eq_none_iff.mp hb
      refine (h.move ha' (by omega) (by omega) fun k _ hk hne => ?_).up (by rw [List.length_swap]; omega)
      exact notBelow_of_ge (by omega)
    · rename_i ha
      exact h.up (List.getElem?_eq_none_iff.mp ha)

/-! ### Push, pop and front -/

theorem pushHeap_heaped (hw : StrictWeak less) (h : Heaped less l) (v : α) : Heaped less (pushHeap less l v) := by
  refine siftUp_heaped hw ⟨fun j hj hne => ?_, fun _ j hj hp => ?_⟩ (Nat.le_refl _)
  · by_cases hlt : j < l.length
    · intro a b ha hb
      rw [List.getElem?_append_left (by omega)] at ha hb
      exact h j hj a b ha hb
    · exact notBelow_of_ge (by rw [List.length_append, List.length_singleton]; omega)
  · exact notBelow_of_ge (by rw [List.length_append, List.length_singleton]; omega)

theorem popHeap_heaped (hw : StrictWeak less) (h : Heaped less l) : Heaped less (popHeap less l) := by
  cases l with
  | nil => exact h
  | cons x rest =>
    simp only [popHeap]
    split
    · intro j _ a b _ hb
      cases hb
    rename_i v _
    refine siftUp_heaped hw (sink_up hw ⟨fun j hj _ hp a b ha hb => ?_, fun h0 => absurd h0 (Nat.lt_irrefl 0)⟩ ?_) (Nat.le_refl _)
    · -- behind the front, the values are where they were
      have same {m : Nat} {y : α} (hm : m ≠ 0) (hy : (v :: rest.dropLast)[m]? = some y) : (x :: rest)[m]? = some y := by
        obtain ⟨m, rfl⟩ := Nat.exists_eq_succ_of_ne_zero hm
        rw [Nat.succ_eq_add_one, List.getElem?_cons_succ] at hy ⊢
        obtain ⟨hlt, hget⟩ := List.getElem?_eq_some_iff.mp hy
        rw [List.getElem_dropLast] at hget
        exact List.getElem?_eq_some_iff.mpr ⟨by rw [List.length_dropLast] at hlt; omega, hget⟩
      exact h j hj a b (same hp ha) (same (by omega) hb)
    · exact Nat.le_refl _

/-- No value of a heap is above its front. -/
theorem Heaped.front (hw : StrictWeak less) (h : Heaped less l) {a b : α} (ha : l.head? = some a) (hb : b ∈ l) :
    less a b = false := by
  rw [List.head?_eq_getElem?] at ha
  obtain ⟨m, hm⟩ := List.mem_iff_getElem?.mp hb
  induction m using Nat.strongRecOn generalizing b with
  | _ m ih =>
    by_cases h0 : m = 0
    · subst h0
      obtain rfl := Option.some.inj (ha.symm.trans hm)
      by_contra hself
      exact hself (hw.asymm a a (Bool.not_eq_false _ ▸ hself))
    have hlt : m < l.length := (List.getElem?_eq_some_iff.mp hm).1
    have hparent := List.getElem?_eq_getElem (show (m - 1) / 2 < l.length by omega)
    have hup := ih ((m - 1) / 2) (by omega) (List.getElem_mem _) hparent
    exact hw.trans a _ b hup (h m (by omega) _ b hparent hm)

end Tornet.Library.Heap
