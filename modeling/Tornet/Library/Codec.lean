import Mathlib.Algebra.Group.Nat.Defs
import Mathlib.Data.List.Basic
import Tornet.Library.Varint

/-! Binary formats that are read from a stream: what was packed is read back and the rest is left,
and a format is strict if a value that was cut short cannot be read. -/
namespace Tornet.Library

structure Codec (α : Type) where
  pack : α → List UInt8
  unpack : List UInt8 → Option (α × List UInt8)
  unpack_pack : ∀ a rest, unpack (pack a ++ rest) = some (a, rest)

namespace Codec
variable {α β : Type}

def Strict (c : Codec α) : Prop := ∀ a p, p <+: c.pack a → p ≠ c.pack a → c.unpack p = none

/-- A prefix of two parts ends in the first or in the second. -/
theorem cut_append {p a b : List UInt8} (h : p <+: a ++ b) (hne : p ≠ a ++ b) :
    (p <+: a ∧ p ≠ a) ∨ ∃ q, p = a ++ q ∧ q <+: b ∧ q ≠ b := by
  rcases List.prefix_or_prefix_of_prefix h (List.prefix_append a b) with hpa | ⟨q, rfl⟩
  · by_cases he : p = a
    · refine .inr ⟨[], by simp [he], List.nil_prefix, fun hb => hne ?_⟩
      simp [he, ← hb]
    · exact .inl ⟨hpa, he⟩
  · exact .inr ⟨q, rfl, (List.prefix_append_right_inj a).mp h, fun hb => hne (hb ▸ rfl)⟩

/-! ### Words -/

/-- The bytes of a number in memory, the lowest first. -/
def leBytes : Nat → Nat → List UInt8
  | 0, _ => []
  | k + 1, n => UInt8.ofNat (n % 256) :: leBytes k (n / 256)

def leNat : List UInt8 → Nat
  | [] => 0
  | b :: rest => b.toNat + 256 * leNat rest

theorem length_leBytes (k n : Nat) : (leBytes k n).length = k := by
  induction k generalizing n with
  | zero => rfl
  | succ k ih => simp [leBytes, ih]

theorem leNat_leBytes (k n : Nat) (h : n < 256 ^ k) : leNat (leBytes k n) = n := by
  induction k generalizing n with
  | zero =>
    simp only [Nat.pow_zero] at h
    obtain rfl : n = 0 := by omega
    rfl
  | succ k ih =>
    have hdiv : n / 256 < 256 ^ k := Nat.div_lt_of_lt_mul (by rwa [Nat.pow_succ, Nat.mul_comm] at h)
    rw [leBytes, leNat, ih _ hdiv, Varint.toNat_ofNat (Nat.mod_lt n (by decide))]
    exact Nat.mod_add_div n 256

/-- A value of `k` bytes. -/
def fixed (k : Nat) (pack : α → List UInt8) (read : List UInt8 → α) (hlen : ∀ a, (pack a).length = k)
    (hread : ∀ a, read (pack a) = a) : Codec α where
  pack := pack
  unpack bytes := if bytes.length < k then none else some (read (bytes.take k), bytes.drop k)
  unpack_pack a rest := by
    rw [if_neg (by simp [hlen]), List.take_left' (hlen a), List.drop_left' (hlen a), hread]

theorem fixed_strict {k : Nat} {pack : α → List UInt8} {read : List UInt8 → α} (hlen : ∀ a, (pack a).length = k)
    (hread : ∀ a, read (pack a) = a) : (fixed k pack read hlen hread).Strict := by
  intro a p hp hne
  have hlt : p.length < k := by
    refine lt_of_le_of_ne (hlen a ▸ hp.length_le) fun he => hne ?_
    exact hp.eq_of_length (he.trans (hlen a).symm)
  exact if_pos hlt

theorem leNat_toNat (k : Nat) (x : BitVec (8 * k)) : BitVec.ofNat (8 * k) (leNat (leBytes k x.toNat)) = x := by
  have hx : x.toNat < 256 ^ k := by
    have := x.isLt
    rwa [Nat.pow_mul] at this
  rw [leNat_leBytes k _ hx, BitVec.ofNat_toNat, BitVec.setWidth_eq]

/-- `k` bytes for a word of `8 k` bits. -/
def word (k : Nat) : Codec (BitVec (8 * k)) :=
  fixed k (fun x => leBytes k x.toNat) (fun bytes => BitVec.ofNat _ (leNat bytes)) (fun x => length_leBytes k x.toNat)
    (leNat_toNat k)

theorem word_strict (k : Nat) : (word k).Strict := fixed_strict _ _

/-- The same with the highest byte first. -/
def beWord (k : Nat) : Codec (BitVec (8 * k)) :=
  fixed k (fun x => (leBytes k x.toNat).reverse) (fun bytes => BitVec.ofNat _ (leNat bytes.reverse))
    (fun x => by rw [List.length_reverse, length_leBytes]) (fun x => by rw [List.reverse_reverse, leNat_toNat])

theorem beWord_strict (k : Nat) : (beWord k).Strict := fixed_strict _ _

def byte : Codec UInt8 where
  pack b := [b]
  unpack
    | [] => none
    | b :: rest => some (b, rest)
  unpack_pack _ _ := rfl

theorem byte_strict : byte.Strict := by
  intro b p hp hne
  cases p with
  | nil => rfl
  | cons a p =>
    obtain ⟨rfl, hnil⟩ := List.cons_prefix_cons.mp hp
    exact absurd (congrArg (a :: ·) (List.prefix_nil.mp hnil)) hne

/-! ### Compound values -/

def pair (c : Codec α) (d : Codec β) : Codec (α × β) where
  pack x := c.pack x.1 ++ d.pack x.2
  unpack bytes := do
    let (a, rest) ← c.unpack bytes
    let (b, rest) ← d.unpack rest
    some ((a, b), rest)
  unpack_pack x rest := by
    simp only [List.append_assoc, c.unpack_pack, d.unpack_pack, Option.bind_eq_bind, Option.bind_some]

theorem Strict.pair {c : Codec α} {d : Codec β} (hc : c.Strict) (hd : d.Strict) : (c.pair d).Strict := by
  intro x p hp hne
  rcases cut_append hp hne with ⟨hpa, hna⟩ | ⟨q, rfl, hq, hnb⟩
  · simp only [Codec.pair, hc x.1 p hpa hna, Option.bind_eq_bind, Option.bind_none]
  · simp only [Codec.pair, c.unpack_pack, hd x.2 q hq hnb, Option.bind_eq_bind, Option.bind_some, Option.bind_none]

/-- A type with the same values. -/
def map (c : Codec α) (f : α → β) (g : β → α) (h : ∀ b, f (g b) = b) : Codec β where
  pack b := c.pack (g b)
  unpack bytes := (c.unpack bytes).map fun r => (f r.1, r.2)
  unpack_pack b rest := by simp [c.unpack_pack, h]

theorem Strict.map {c : Codec α} (hc : c.Strict) {f : α → β} {g : β → α} (h : ∀ b, f (g b) = b) :
    (c.map f g h).Strict := by
  intro b p hp hne
  simp only [Codec.map, hc (g b) p hp hne, Option.map_none]

def varint : Codec Nat := ⟨Varint.encode, Varint.decode, Varint.decode_encode⟩

theorem varint_strict : varint.Strict := by
  suffices h : ∀ bound n p, p <+: Varint.groups bound n → p ≠ Varint.groups bound n → n ≤ bound →
      Varint.decode p = none from fun n p hp hne => h n n p hp hne le_rfl
  have single {b : UInt8} {p : List UInt8} (hp : p <+: [b]) (hne : p ≠ [b]) : Varint.decode p = none := by
    have hlt : p.length < 1 := lt_of_le_of_ne hp.length_le fun he => hne (hp.eq_of_length he)
    rw [List.length_eq_zero_iff.mp (by omega : p.length = 0)]
    rfl
  intro bound
  induction bound with
  | zero => exact fun n p hp hne _ => single hp hne
  | succ bound ih =>
    intro n p hp hne hn
    rw [Varint.groups] at hp hne
    split_ifs at hp hne
    · exact single hp hne
    · cases p with
      | nil => rfl
      | cons b p =>
        obtain ⟨rfl, htail⟩ := List.cons_prefix_cons.mp hp
        have hb := Varint.toNat_ofNat (show n % 128 + 128 < 256 by omega)
        have hrest := ih (n / 128) p htail (fun he => hne (by rw [he])) (by omega)
        rw [Varint.decode, hb, if_neg (by omega), hrest, Option.map_none]

/-- As many values as were announced. -/
def items (c : Codec α) : Nat → List UInt8 → Option (List α × List UInt8)
  | 0, bytes => some ([], bytes)
  | n + 1, bytes => do
    let (a, rest) ← c.unpack bytes
    let (as, rest) ← items c n rest
    some (a :: as, rest)

theorem items_pack (c : Codec α) (as : List α) (rest : List UInt8) :
    c.items as.length (as.flatMap c.pack ++ rest) = some (as, rest) := by
  induction as with
  | nil => rfl
  | cons a as ih =>
    simp only [List.length_cons, items, List.flatMap_cons, List.append_assoc, c.unpack_pack, ih,
      Option.bind_eq_bind, Option.bind_some]

/-- A vector: its size and its values. -/
def list (c : Codec α) : Codec (List α) where
  pack as := varint.pack as.length ++ as.flatMap c.pack
  unpack bytes := do
    let (n, rest) ← varint.unpack bytes
    c.items n rest
  unpack_pack as rest := by
    simp only [List.append_assoc, varint.unpack_pack, Option.bind_eq_bind, Option.bind_some, c.items_pack]

theorem Strict.list {c : Codec α} (hc : c.Strict) : c.list.Strict := by
  have short (as : List α) : ∀ p, p <+: as.flatMap c.pack → p ≠ as.flatMap c.pack → c.items as.length p = none := by
    induction as with
    | nil => exact fun p hp hne => absurd (List.prefix_nil.mp hp) hne
    | cons a as ih =>
      intro p hp hne
      rcases cut_append hp hne with ⟨hpa, hna⟩ | ⟨q, rfl, hq, hnb⟩
      · simp only [List.length_cons, items, hc a p hpa hna, Option.bind_eq_bind, Option.bind_none]
      · simp only [List.length_cons, items, c.unpack_pack, ih q hq hnb, Option.bind_eq_bind, Option.bind_some,
          Option.bind_none]
  intro as p hp hne
  rcases cut_append hp hne with ⟨hpa, hna⟩ | ⟨q, rfl, hq, hnb⟩
  · simp only [Codec.list, varint_strict as.length p hpa hna, Option.bind_eq_bind, Option.bind_none]
  · simp only [Codec.list, varint.unpack_pack, Option.bind_eq_bind, Option.bind_some, short as q hq hnb]

/-! ### Streams over a buffer -/

/-- One field written to a stream over `room` bytes. A field that does not fit is refused: the stream
throws or goes on without it. -/
def put (throws : Bool) (room : Nat) (out field : List UInt8) : Option (List UInt8) :=
  if out.length + field.length ≤ room then some (out ++ field) else if throws then none else some out

def putAll (throws : Bool) (room : Nat) : List UInt8 → List (List UInt8) → Option (List UInt8)
  | out, [] => some out
  | out, field :: rest => do
    let out ← put throws room out field
    putAll throws room out rest

variable {throws : Bool} {room : Nat} {out : List UInt8}

theorem putAll_fits {fields : List (List UInt8)} (h : out.length + fields.flatten.length ≤ room) :
    putAll throws room out fields = some (out ++ fields.flatten) := by
  induction fields generalizing out with
  | nil => simp [putAll]
  | cons field rest ih =>
    rw [List.flatten_cons, List.length_append] at h
    rw [putAll, put, if_pos (by omega)]
    simp only [Option.bind_eq_bind, Option.bind_some]
    rw [ih (by rw [List.length_append]; omega), List.flatten_cons, List.append_assoc]

/-- What was written stays, whatever follows. -/
theorem putAll_grows {fields : List (List UInt8)} {res : List UInt8} (h : putAll throws room out fields = some res) :
    out.length ≤ res.length := by
  induction fields generalizing out with
  | nil => exact Nat.le_of_eq (congrArg List.length (Option.some.inj h))
  | cons field rest ih =>
    rw [putAll, put] at h
    split_ifs at h
    · have := ih h
      rw [List.length_append] at this
      omega
    · exact absurd h (by simp)
    · exact ih h

theorem putAll_append (out : List UInt8) (fields more : List (List UInt8)) :
    putAll throws room out (fields ++ more) =
      (putAll throws room out fields).bind fun out => putAll throws room out more := by
  induction fields generalizing out with
  | nil => rfl
  | cons field rest ih =>
    simp only [List.cons_append, putAll, Option.bind_eq_bind, Option.bind_assoc, ih]

end Codec
end Tornet.Library
