import Mathlib.Data.List.Nodup
import Mathlib.Logic.Function.Basic

/-! Singly linked lists with a tail pointer: what the links spell, the search with a trailing pointer,
and the two updates an intrusive queue makes. -/
namespace Tornet.Library.Linked

variable {α : Type*} {next : α → Option α} {p q head tail : Option α} {l : List α}

/-- From `p` the links spell `l` and arrive at `q`. -/
def Path (next : α → Option α) : Option α → List α → Option α → Prop
  | p, [], q => p = q
  | p, x :: xs, q => p = some x ∧ Path next (next x) xs q

theorem path_append {a b : List α} :
    Path next p (a ++ b) q ↔ ∃ m, Path next p a m ∧ Path next m b q := by
  induction a generalizing p with
  | nil => simp [Path]
  | cons x a ih => simp [Path, ih, and_assoc]

/-- The links of the members decide the path. -/
theorem Path.congr {next' : α → Option α} (h : Path next p l q) (heq : ∀ x ∈ l, next' x = next x) :
    Path next' p l q := by
  induction l generalizing p with
  | nil => exact h
  | cons x l ih =>
    refine ⟨h.1, ?_⟩
    rw [heq x List.mem_cons_self]
    exact ih h.2 fun y hy => heq y (List.mem_cons_of_mem x hy)

/-- The search with a trailing pointer: the first hit, and the element before it. -/
def seek (next : α → Option α) (hit : α → Bool) : Nat → Option α → Option α → Option (Option α × α)
  | 0, _, _ => none
  | _ + 1, _, none => none
  | fuel + 1, prev, some cur => if hit cur then some (prev, cur) else seek next hit fuel (some cur) (next cur)

/-- On a path the search stops at the first hit, with fuel for the elements before it. -/
theorem seek_eq_some {hit : α → Bool} {fuel : Nat} {prev : Option α} {a b : List α} {x : α}
    (h : Path next p (a ++ x :: b) none) (hmiss : ∀ y ∈ a, hit y = false) (hx : hit x = true)
    (hfuel : a.length < fuel) : seek next hit fuel prev p = some (a.getLast?.or prev, x) := by
  induction a generalizing prev p fuel with
  | nil =>
    obtain ⟨rfl, -⟩ := h
    cases fuel with
    | zero => omega
    | succ fuel => simp [seek, hx]
  | cons y a ih =>
    obtain ⟨rfl, hl⟩ := h
    cases fuel with
    | zero => omega
    | succ fuel =>
      rw [seek, hmiss y List.mem_cons_self]
      have hrest : seek next hit fuel (some y) (next y) = some (a.getLast?.or (some y), x) :=
        ih hl (fun z hz => hmiss z (List.mem_cons_of_mem y hz)) (by simpa using hfuel)
      simp only [Bool.false_eq_true, if_false, hrest]
      rw [List.getLast?_cons, Option.some_or]
      cases a.getLast? <;> rfl

/-- Without a hit on the path the search ends with nothing. -/
theorem seek_eq_none {hit : α → Bool} {fuel : Nat} {prev : Option α} (h : Path next p l none)
    (hmiss : ∀ y ∈ l, hit y = false) : seek next hit fuel prev p = none := by
  induction l generalizing prev p fuel with
  | nil =>
    obtain rfl : p = none := h
    cases fuel <;> rfl
  | cons y l ih =>
    obtain ⟨rfl, hl⟩ := h
    cases fuel with
    | zero => rfl
    | succ fuel =>
      rw [seek, hmiss y List.mem_cons_self]
      exact ih hl fun z hz => hmiss z (List.mem_cons_of_mem y hz)

/-- The elements that the links lead through, no more than the fuel. -/
def walk (next : α → Option α) : Nat → Option α → List α
  | 0, _ => []
  | _ + 1, none => []
  | fuel + 1, some x => x :: walk next fuel (next x)

theorem Path.walk_eq {fuel : Nat} (h : Path next p l none) (hfuel : l.length ≤ fuel) : walk next fuel p = l := by
  induction l generalizing p fuel with
  | nil =>
    obtain rfl : p = none := h
    cases fuel <;> rfl
  | cons x l ih =>
    obtain ⟨rfl, hl⟩ := h
    cases fuel with
    | zero => cases hfuel
    | succ fuel => rw [walk, ih hl (Nat.le_of_succ_le_succ hfuel)]

/-- A queue kept by a head and a tail pointer. -/
structure Queue (next : α → Option α) (head tail : Option α) (l : List α) : Prop where
  path : Path next head l none
  last : tail = l.getLast?
  nodup : l.Nodup

theorem Queue.empty (next : α → Option α) : Queue next none none [] := ⟨rfl, rfl, List.nodup_nil⟩

theorem Queue.congr {next' : α → Option α} (h : Queue next head tail l)
    (heq : ∀ x ∈ l, next' x = next x) : Queue next' head tail l :=
  ⟨h.path.congr heq, h.last, h.nodup⟩

variable [DecidableEq α]

/-- A path does not see an update elsewhere. -/
theorem Path.update {x : α} {v : Option α} (h : Path next p l q) (hx : x ∉ l) :
    Path (Function.update next x v) p l q := by
  apply h.congr
  intro y hy
  exact Function.update_of_ne (ne_of_mem_of_not_mem hy hx) v next

/-- The link of the last element is redirected. -/
theorem Path.redirect {a : List α} {x : α} {v : Option α} (h : Path next p (a ++ [x]) q)
    (hx : x ∉ a) : Path (Function.update next x v) p (a ++ [x]) v := by
  obtain ⟨m, ha, rfl, -⟩ := path_append.mp h
  exact path_append.mpr ⟨some x, ha.update hx, rfl, by simp [Path]⟩

/-- Append to an empty queue. -/
theorem Queue.first (r : α) : Queue (Function.update next r none) (some r) (some r) [r] :=
  ⟨⟨rfl, by simp [Path]⟩, rfl, List.nodup_singleton r⟩

/-- Append behind the tail. -/
theorem Queue.push {t r : α} (h : Queue next head (some t) l) (hr : r ∉ l) :
    Queue (Function.update (Function.update next r none) t (some r)) head (some r) (l ++ [r]) := by
  obtain ⟨a, rfl⟩ : ∃ a, l = a ++ [t] := List.getLast?_eq_some_iff.mp h.last.symm
  have hat : t ∉ a := fun ht => (List.nodup_append.mp h.nodup).2.2 t ht t List.mem_cons_self rfl
  have htr : r ≠ t := by
    rintro rfl
    exact hr (by simp)
  refine ⟨path_append.mpr ⟨some r, ?_, rfl, ?_⟩, by simp, ?_⟩
  · exact (h.path.update hr).redirect hat
  · simp [Path, Function.update_of_ne htr]
  · rw [List.nodup_append]
    refine ⟨h.nodup, List.nodup_singleton r, fun y hy z hz => ?_⟩
    rw [List.mem_singleton.mp hz]
    exact ne_of_mem_of_not_mem hy hr

/-- Where the removed element was the last, the tail moves to the element before it. -/
theorem last_of_unlink {a b : List α} {x : α} (hxb : x ∉ b) (hlast : tail = (a ++ x :: b).getLast?) :
    (if tail = some x then a.getLast? else tail) = (a ++ b).getLast? := by
  rw [hlast]
  rcases List.eq_nil_or_concat' b with rfl | ⟨b, z, rfl⟩
  · simp
  · have hzx : z ≠ x := by
      rintro rfl
      exact hxb (by simp)
    simp [List.getLast?_append, List.getLast?_cons, hzx]

/-- Unlink the first element: the head takes over its link. -/
theorem Queue.unlink_first {b : List α} {x : α} (h : Queue next head tail (x :: b)) :
    Queue (Function.update next x none) (next x) (if tail = some x then none else tail) b := by
  obtain ⟨hxb, hb⟩ := List.nodup_cons.mp h.nodup
  have hpath : Path next (next x) b none := h.path.2
  exact ⟨hpath.update hxb, last_of_unlink (a := []) hxb h.last, hb⟩

/-- Unlink an element behind another one, whose link takes over. -/
theorem Queue.unlink_after {a b : List α} {x y : α} (h : Queue next head tail (a ++ [y] ++ x :: b)) :
    Queue (Function.update (Function.update next y (next x)) x none) head
      (if tail = some x then some y else tail) (a ++ [y] ++ b) := by
  obtain ⟨m, ha, rfl, hb⟩ := path_append.mp h.path
  have hn := h.nodup
  rw [List.nodup_middle, List.nodup_cons, List.mem_append, not_or] at hn
  obtain ⟨⟨hxa, hxb⟩, hab⟩ := hn
  obtain ⟨hay, -, hd⟩ := List.nodup_append.mp hab
  have hya : y ∉ a := fun hy => (List.nodup_append.mp hay).2.2 y hy y List.mem_cons_self rfl
  have hyb : y ∉ b := fun hy => hd y (by simp) y hy rfl
  refine ⟨?_, ?_, hab⟩
  · exact path_append.mpr ⟨next x, (ha.redirect hya).update hxa, (hb.update hyb).update hxb⟩
  · simpa using last_of_unlink hxb h.last

end Tornet.Library.Linked
